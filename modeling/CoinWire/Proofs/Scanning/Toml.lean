import Mathlib
import CoinWire.Proofs.Scanning
import CoinWire.Toml.Parser

/-!
# TOML documents are read to their end

Strings, keys, gaps and documents are read in rounds, and every round takes a character. Values are
read in steps down and along, as deep as there are brackets and as far as there are commas. So the
rounds and steps that are allowed are enough, whatever the text: more of them change nothing.
-/

namespace CoinWire.Toml

open Text Scan

namespace Parser

variable {fuel limit depth : Nat}

/-! ## Lines -/

theorem takes_newline : newline.Takes :=
  (takes_char '\n').orElse (takes_literal (List.cons_ne_nil _ _))

theorem takes_comment : comment.Takes :=
  (takes_char '#').bind _

theorem gaps_sameBelow (fuel : Nat) : SameBelow fuel (gaps fuel) (gaps (fuel + 1)) := by
  induction fuel with
  | zero => exact .zero _ _
  | succ fuel ih =>
    rw [gaps, gaps]
    apply SameBelow.after
    intro _
    apply SameBelow.after
    intro next
    split
    · exact takes_comment.sameBelow fun _ ↦ .after _ fun _ ↦ ih
    · exact takes_newline.sameBelow fun _ ↦ ih
    · exact takes_newline.sameBelow fun _ ↦ ih
    · exact .refl _ _

/-! ## Strings -/

theorem basicOnto_sameBelow (fuel : Nat) (read : List Char) :
    SameBelow fuel (basicOnto fuel read) (basicOnto (fuel + 1) read) := by
  induction fuel generalizing read with
  | zero => exact .zero _ _
  | succ fuel ih =>
    rw [basicOnto, basicOnto]
    apply (takes_one _).sameBelow
    intro c
    split_ifs
    · exact .refl _ _
    · exact .after _ fun c ↦ ih _
    · exact ih _

/-- Where nothing is left there are no blank lines, so no round is needed there. -/
theorem blankLines_sameBelow (fuel : Nat) :
    SameBelow (fuel + 1) (blankLines fuel) (blankLines (fuel + 1)) := by
  induction fuel with
  | zero =>
    intro text hshort
    obtain rfl := List.eq_nil_of_length_eq_zero (Nat.lt_one_iff.1 hshort)
    rfl
  | succ fuel ih =>
    rw [blankLines, blankLines]
    apply SameBelow.after
    intro _
    apply takes_newline.sameBelow_option
    · intro _
      exact ih
    · exact .refl _ _

theorem multilineOnto_sameBelow (mark : Char) (escapes : Bool) (fuel : Nat) (read : List Char) :
    SameBelow fuel (multilineOnto mark escapes fuel read)
      (multilineOnto mark escapes (fuel + 1) read) := by
  induction fuel generalizing read with
  | zero => exact .zero _ _
  | succ fuel ih =>
    rw [multilineOnto, multilineOnto]
    apply SameBelow.after
    intro ahead
    dsimp only
    split
    · exact .refl _ _
    · apply takes_newline.sameBelow_option
      · intro _
        exact ih _
      · apply (takes_one _).sameBelow
        intro c
        split
        · apply SameBelow.after
          intro join
          cases join with
          | none => exact .after _ fun c ↦ ih _
          | some _ => exact ih _
        · exact ih _

/-! ## Keys -/

theorem keyParts_sameBelow (fuel : Nat) : SameBelow fuel (keyParts fuel) (keyParts (fuel + 1)) := by
  induction fuel with
  | zero => exact .zero _ _
  | succ fuel ih =>
    rw [keyParts, keyParts]
    apply SameBelow.after
    intro _
    apply SameBelow.after
    intro part
    apply SameBelow.after
    intro _
    apply SameBelow.after
    intro next
    split_ifs
    · exact (takes_char '.').sameBelow fun _ ↦ ih.bind fun _ ↦ .refl _ _
    · exact .refl _ _

/-! ## Values -/

/-- A bracket is taken before the elements or entries. -/
theorem value_sameBelow
    (helements : SameBelow limit (elements (depth + 1) fuel) (elements (depth + 1) (fuel + 1)))
    (hentries : ∀ table, SameBelow limit (entries (depth + 1) fuel table)
      (entries (depth + 1) (fuel + 1) table)) :
    SameBelow (limit + 1) (value depth (fuel + 1)) (value depth (fuel + 2)) := by
  rw [value, value]
  apply SameBelow.after
  intro next
  cases next with
  | none => exact .refl _ _
  | some c =>
    dsimp only
    split_ifs
    · exact .refl _ _
    · exact .refl _ _
    · exact .refl _ _
    · exact .refl _ _
    · exact (takes_char '[').sameBelow fun _ ↦ helements.bind fun _ ↦ .refl _ _
    · apply (takes_char '\x7b').sameBelow
      intro _
      apply SameBelow.after
      intro _
      apply SameBelow.after
      intro first
      split_ifs
      · exact .refl _ _
      · exact (hentries _).bind fun _ ↦ .refl _ _
    · exact .refl _ _
    · exact .refl _ _

/-- A comma is taken before further elements. -/
theorem elements_sameBelow
    (hvalue : SameBelow (limit + 1) (value depth fuel) (value depth (fuel + 1)))
    (helements : SameBelow limit (elements depth fuel) (elements depth (fuel + 1))) :
    SameBelow (limit + 1) (elements depth (fuel + 1)) (elements depth (fuel + 2)) := by
  rw [elements, elements]
  apply SameBelow.after
  intro ahead
  apply SameBelow.after
  intro _
  apply SameBelow.after
  intro next
  split_ifs
  · exact .refl _ _
  · apply hvalue.bind
    intro first
    apply SameBelow.after
    intro ahead
    apply SameBelow.after
    intro _
    apply (takes_one _).sameBelow
    intro next
    split_ifs
    · exact helements.bind fun _ ↦ .refl _ _
    · exact .refl _ _

/-- A comma is taken before further entries. -/
theorem entries_sameBelow (table : Table)
    (hvalue : SameBelow (limit + 1) (value depth fuel) (value depth (fuel + 1)))
    (hentries : ∀ table, SameBelow limit (entries depth fuel table)
      (entries depth (fuel + 1) table)) :
    SameBelow (limit + 1) (entries depth (fuel + 1) table) (entries depth (fuel + 2) table) := by
  rw [entries, entries]
  apply SameBelow.after
  intro path
  apply SameBelow.after
  intro _
  apply SameBelow.after
  intro _
  apply hvalue.bind
  intro value
  apply SameBelow.after
  intro table
  apply SameBelow.after
  intro _
  apply (takes_one _).sameBelow
  intro next
  split_ifs
  · exact hentries table
  · exact .refl _ _

/-- Below half as many characters as there are steps, one step more changes nothing. -/
theorem all_sameBelow (fuel depth limit : Nat) :
    (2 * limit ≤ fuel + 1 → SameBelow limit (value depth fuel) (value depth (fuel + 1))) ∧
      (2 * limit ≤ fuel → SameBelow limit (elements depth fuel) (elements depth (fuel + 1))) ∧
      (2 * limit ≤ fuel → ∀ table, SameBelow limit (entries depth fuel table)
        (entries depth (fuel + 1) table)) := by
  induction fuel generalizing depth limit with
  | zero =>
    cases limit with
    | zero => exact ⟨fun _ ↦ .zero _ _, fun _ ↦ .zero _ _, fun _ _ ↦ .zero _ _⟩
    | succ limit => exact ⟨fun h ↦ by omega, fun h ↦ by omega, fun h ↦ by omega⟩
  | succ fuel ih =>
    cases limit with
    | zero => exact ⟨fun _ ↦ .zero _ _, fun _ ↦ .zero _ _, fun _ _ ↦ .zero _ _⟩
    | succ limit =>
      obtain ⟨-, hinner, hinner'⟩ := ih (depth + 1) limit
      obtain ⟨-, helements, hentries⟩ := ih depth limit
      have hvalue := (ih depth (limit + 1)).1
      refine ⟨?_, ?_, ?_⟩
      · intro h
        exact value_sameBelow (hinner (by omega)) (hinner' (by omega))
      · intro h
        exact elements_sameBelow (hvalue h) (helements (by omega))
      · intro h table
        exact entries_sameBelow table (hvalue h) (hentries (by omega))

/-- Two steps for each character, and two more, are as good as any number. -/
theorem run_value {text : List Char} (h : 2 * text.length + 2 ≤ fuel) (depth : Nat) :
    (value depth fuel).run text = (value depth (2 * text.length + 2)).run text := by
  apply run_eq_of_enough _ h
  intro more hmore
  exact (all_sameBelow more depth (text.length + 1)).1 (by omega) text (Nat.lt_succ_self _)

/-! ## Documents -/

/-- Where something is left, the end of a line takes a character, be it that nothing follows. -/
theorem length_lt_of_endOfLine {text rest : List Char} (hsome : text ≠ [])
    (h : endOfLine.run text = some ((), rest)) : rest.length < text.length := by
  obtain ⟨_, middle, hblanks, h⟩ := run_bind_eq_some h
  obtain ⟨_, last, hcomment, h⟩ := run_bind_eq_some h
  have hlast : last.length ≤ text.length := (length_le hcomment).trans (length_le hblanks)
  rw [run_orElse] at h
  cases hnewline : newline.run last with
  | some answer =>
    rw [hnewline] at h
    exact (takes_newline _ _ _ (hnewline.trans h)).trans_le hlast
  | none =>
    rw [hnewline] at h
    cases last with
    | nil =>
      obtain rfl : rest = [] := List.eq_nil_of_length_eq_zero (Nat.le_zero.1 (length_le h))
      exact List.length_pos_iff.2 hsome
    | cons c last => contradiction

theorem takes_header (state : State) : (header state).Takes := by
  apply takes_bind
  intro ahead
  apply (takes_literal _).bind
  split_ifs
  · exact List.cons_ne_nil _ _
  · exact List.cons_ne_nil _ _

theorem takes_entry (state : State) : (entry state).Takes := by
  apply takes_bind
  intro path
  exact (takes_char '=').bind _

theorem lines_sameBelow (fuel : Nat) (state : State) :
    SameBelow fuel (lines fuel state) (lines (fuel + 1) state) := by
  induction fuel generalizing state with
  | zero => exact .zero _ _
  | succ fuel ih =>
    rw [lines, lines]
    apply SameBelow.after
    intro _ text hshort
    cases text with
    | nil => rfl
    | cons c rest =>
      have hpeek : peek?.run (c :: rest) = some (some c, c :: rest) := rfl
      rw [run_bind, run_bind, hpeek]
      dsimp only
      split_ifs
      · rw [run_bind, run_bind]
        cases hline : endOfLine.run (c :: rest) with
        | none => rfl
        | some answer =>
          have hshorter := length_lt_of_endOfLine (List.cons_ne_nil c rest) hline
          exact ih state answer.2 (hshorter.trans_le (Nat.le_of_lt_succ hshort))
      · exact (takes_header state).sameBelow ih _ hshort
      · exact (takes_entry state).sameBelow ih _ hshort

/-- As many rounds as there are characters, and one for the end, are as good as any number. Blank
lines have no end of their own. -/
theorem run_rounds {text : List Char} (h : text.length < fuel) :
    (gaps fuel).run text = (gaps (text.length + 1)).run text ∧
      (∀ read, (basicOnto fuel read).run text = (basicOnto (text.length + 1) read).run text) ∧
      (blankLines fuel).run text = (blankLines text.length).run text ∧
      (∀ mark escapes read, (multilineOnto mark escapes fuel read).run text =
        (multilineOnto mark escapes (text.length + 1) read).run text) ∧
      (keyParts fuel).run text = (keyParts (text.length + 1)).run text ∧
      ∀ state, (lines fuel state).run text = (lines (text.length + 1) state).run text := by
  refine ⟨run_eq_of_sameBelow gaps_sameBelow h, ?_, ?_, ?_,
    run_eq_of_sameBelow keyParts_sameBelow h, ?_⟩
  · intro read
    exact run_eq_of_sameBelow (fun fuel ↦ basicOnto_sameBelow fuel read) h
  · apply run_eq_of_enough _ h.le
    intro more hmore
    exact blankLines_sameBelow more text (Nat.lt_succ_of_le hmore)
  · intro mark escapes read
    exact run_eq_of_sameBelow (fun fuel ↦ multilineOnto_sameBelow mark escapes fuel read) h
  · intro state
    exact run_eq_of_sameBelow (fun fuel ↦ lines_sameBelow fuel state) h

end Parser

/-- With any greater number of rounds the whole document is read in the same way. -/
theorem parse?_eq_whole? {text : String} {fuel : Nat} (h : text.length < fuel) :
    parse? text = Scan.whole? (do
      discard (Scan.option (Scan.char '\uFEFF'))
      let state ← Parser.lines fuel ⟨Table.empty .header, []⟩
      return state.root.entries) text := by
  unfold parse? whole? Parser.document
  rw [run_bind, run_bind]
  cases hmark : (discard (Scan.option (Scan.char '\uFEFF'))).run text.toList with
  | none => rfl
  | some answer =>
    have hshort : answer.2.length < fuel := (length_le hmark).trans_lt h
    obtain ⟨-, -, -, -, -, hlines⟩ := Parser.run_rounds hshort
    dsimp only
    rw [run_bind, run_bind, hlines]
    rfl

end CoinWire.Toml
