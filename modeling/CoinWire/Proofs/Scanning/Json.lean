import Mathlib
import CoinWire.Json.Parser
import CoinWire.Proofs.Scanning

/-!
# JSON texts are read to their end

The reader of values is allowed so many steps down and along. Each step down takes a bracket, and
each step along a comma, so that two steps for a character of the text and two more are as good as
any number of them. What is refused is never refused for want of steps.
-/

namespace CoinWire.Json

open Text Scan

namespace Parser

variable {fuel limit : Nat}

/-! ## Strings -/

theorem stringOnto_sameBelow (fuel : Nat) (read : Option (List Char)) :
    SameBelow fuel (stringOnto fuel read) (stringOnto (fuel + 1) read) := by
  induction fuel generalizing read with
  | zero => exact .zero _ _
  | succ fuel ih =>
    rw [stringOnto, stringOnto]
    apply (takes_one _).sameBelow
    intro c
    split_ifs
    · exact .refl _ _
    · exact .after _ fun value ↦ ih _
    · exact ih _

/-- One step for each character and one for the end. -/
theorem run_stringOnto {text : List Char} (h : text.length < fuel) (read : Option (List Char)) :
    (stringOnto fuel read).run text = (stringOnto (text.length + 1) read).run text :=
  run_eq_of_sameBelow (fun fuel ↦ stringOnto_sameBelow fuel read) h

/-! ## Values -/

/-- A bracket is taken before the elements or members. -/
theorem value_sameBelow (helements : SameBelow limit (elements fuel) (elements (fuel + 1)))
    (hmembers : SameBelow limit (members fuel) (members (fuel + 1))) :
    SameBelow (limit + 1) (value (fuel + 1)) (value (fuel + 2)) := by
  rw [value, value]
  apply SameBelow.after
  intro _
  apply SameBelow.after
  intro next
  cases next with
  | none => exact .refl _ _
  | some c =>
    dsimp only
    split_ifs
    · exact .refl _ _
    · exact .refl _ _
    · exact .refl _ _
    · exact .refl _ _
    · apply (takes_char '[').sameBelow
      intro _
      apply SameBelow.after
      intro _
      apply SameBelow.after
      intro first
      split_ifs
      · exact .refl _ _
      · exact helements.bind fun _ ↦ .refl _ _
    · apply (takes_char '\x7b').sameBelow
      intro _
      apply SameBelow.after
      intro _
      apply SameBelow.after
      intro first
      split_ifs
      · exact .refl _ _
      · exact hmembers.bind fun _ ↦ .refl _ _
    · exact .refl _ _

/-- A comma is taken before further elements. -/
theorem elements_sameBelow (hvalue : SameBelow (limit + 1) (value fuel) (value (fuel + 1)))
    (helements : SameBelow limit (elements fuel) (elements (fuel + 1))) :
    SameBelow (limit + 1) (elements (fuel + 1)) (elements (fuel + 2)) := by
  rw [elements, elements]
  apply hvalue.bind
  intro first
  apply SameBelow.after
  intro _
  apply (takes_one _).sameBelow
  intro next
  split_ifs
  · exact helements.bind fun _ ↦ .refl _ _
  · exact .refl _ _

/-- A comma is taken before further members. -/
theorem members_sameBelow (hvalue : SameBelow (limit + 1) (value fuel) (value (fuel + 1)))
    (hmembers : SameBelow limit (members fuel) (members (fuel + 1))) :
    SameBelow (limit + 1) (members (fuel + 1)) (members (fuel + 2)) := by
  rw [members, members]
  apply SameBelow.after
  intro _
  apply SameBelow.after
  intro name
  apply SameBelow.after
  intro _
  apply SameBelow.after
  intro _
  apply hvalue.bind
  intro first
  apply SameBelow.after
  intro _
  apply (takes_one _).sameBelow
  intro next
  split_ifs
  · exact hmembers.bind fun _ ↦ .refl _ _
  · exact .refl _ _

/-- Below half as many characters as there are steps, one step more changes nothing. -/
theorem all_sameBelow (fuel limit : Nat) :
    (2 * limit ≤ fuel + 1 → SameBelow limit (value fuel) (value (fuel + 1))) ∧
      (2 * limit ≤ fuel → SameBelow limit (elements fuel) (elements (fuel + 1))) ∧
      (2 * limit ≤ fuel → SameBelow limit (members fuel) (members (fuel + 1))) := by
  induction fuel generalizing limit with
  | zero =>
    cases limit with
    | zero => exact ⟨fun _ ↦ .zero _ _, fun _ ↦ .zero _ _, fun _ ↦ .zero _ _⟩
    | succ limit => exact ⟨fun h ↦ by omega, fun h ↦ by omega, fun h ↦ by omega⟩
  | succ fuel ih =>
    cases limit with
    | zero => exact ⟨fun _ ↦ .zero _ _, fun _ ↦ .zero _ _, fun _ ↦ .zero _ _⟩
    | succ limit =>
      obtain ⟨-, helements, hmembers⟩ := ih limit
      have hvalue := (ih (limit + 1)).1
      refine ⟨?_, ?_, ?_⟩
      · intro h
        exact value_sameBelow (helements (by omega)) (hmembers (by omega))
      · intro h
        exact elements_sameBelow (hvalue h) (helements (by omega))
      · intro h
        exact members_sameBelow (hvalue h) (hmembers (by omega))

/-- Two steps for each character, and two more, are as good as any number. -/
theorem run_value {text : List Char} (h : 2 * text.length + 2 ≤ fuel) :
    (value fuel).run text = (value (2 * text.length + 2)).run text := by
  apply run_eq_of_enough _ h
  intro more hmore
  exact (all_sameBelow more (text.length + 1)).1 (by omega) text (Nat.lt_succ_self _)

end Parser

/-- With any greater number of steps the whole text is read in the same way. -/
theorem parse?_eq_whole? {text : String} {fuel : Nat} (h : 2 * text.length + 2 ≤ fuel) :
    parse? text = Scan.whole? (do
      let result ← Parser.value fuel
      Parser.blanks
      return result) text := by
  have hlength : text.toList.length = text.length := rfl
  have hvalue : (Parser.value fuel).run text.toList =
      (Parser.value (2 * text.toList.length + 2)).run text.toList := by
    apply Parser.run_value
    rwa [hlength]
  unfold parse? whole? Parser.document
  simp only [run_bind, hvalue]
  rfl

end CoinWire.Json
