import Almanac.Rule.Token

set_option autoImplicit false

/-!
The parts of a rule text: `name=value,value` with a semicolon between parts, and one more allowed
after the last. No part may be given twice. A fault is placed at the token where the text stops
making sense, or after the last token where the text ends too early.
-/

namespace Almanac

namespace Parts

structure Fault where
  fault : TextFault
  span : Span

/-- The span at which the rest of a text is faulty. `finish` is the end of the last token. -/
def spanOf (finish : Nat) : List Token → Span
  | [] => ⟨finish, finish⟩
  | t :: _ => t.span

/-- The values of the part `name`, and the tokens after them. -/
def values (finish : Nat) (name : String) : List Token → Except Fault (List String × List Token)
  | ⟨.word w, _⟩ :: ⟨.comma, _⟩ :: rest =>
    (values finish name rest).map (fun (ws, rest) => (w :: ws, rest))
  | ⟨.word w, _⟩ :: rest => .ok ([w], rest)
  | rest => .error ⟨.expectedValue name, spanOf finish rest⟩

theorem length_values (finish : Nat) (name : String) (ts : List Token) {ws : List String}
    {rest : List Token} (h : values finish name ts = .ok (ws, rest)) :
    rest.length < ts.length := by
  fun_induction values finish name ts generalizing ws rest with
  | case1 w _ _ ts ih =>
    cases hv : values finish name ts with
    | error e => simp [hv, Except.map] at h
    | ok p =>
      simp only [hv, Except.map, Except.ok.injEq, Prod.mk.injEq] at h
      have := ih hv
      simp only [List.length_cons, ← h.2]
      omega
  | case2 w _ ts =>
    simp only [Except.ok.injEq, Prod.mk.injEq] at h
    simp [← h.2]
  | case3 => cases h

/-- The parts of a text, added to those already read. -/
def read (finish : Nat) (seen : List (Part × String)) :
    List Token → Except Fault (List (Part × String))
  | [] => .ok seen
  | ⟨.word name, span⟩ :: rest =>
    match Part.ofName? name with
    | none => .error ⟨.unknownPart name, span⟩
    | some part =>
      if seen.any (fun p => p.1 = part) then .error ⟨.repeatedPart name, span⟩
      else match rest with
        | ⟨.equals, _⟩ :: rest =>
          match _h : values finish name rest with
          | .error e => .error e
          | .ok (ws, after) =>
            let seen := seen ++ [(part, String.intercalate "," ws)]
            match after with
            | [] => .ok seen
            | ⟨.semicolon, _⟩ :: after => read finish seen after
            | t :: _ => .error ⟨.expectedSeparator, t.span⟩
        | rest => .error ⟨.expectedEquals name, spanOf finish rest⟩
  | t :: _ => .error ⟨.expectedName, t.span⟩
termination_by ts => ts.length
decreasing_by
  have := length_values finish name _ ‹_›
  simp only [List.length_cons] at this ⊢
  omega

def ofTokens (ts : List Token) : Except Fault (List (Part × String)) :=
  match ts.getLast? with
  | none => .error ⟨.empty, ⟨0, 0⟩⟩
  | some last => read last.span.stop [] ts

/-- The parts of a rule text, in their order. -/
def ofText (s : String) : Except SpecError (List (Part × String)) := do
  let tokens ← Token.ofText s
  match ofTokens tokens with
  | .ok parts => .ok parts
  | .error e => .error (.text e.fault e.span s)

end Parts

end Almanac
