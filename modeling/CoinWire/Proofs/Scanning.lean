import Mathlib
import CoinWire.Text.Scan

/-!
# Scans that come to an end

What a scan leaves is an end of the text, and a shorter one where a character was taken. Two scans
of the same make are compared part by part: they do the same on short texts if their first parts do,
and if the parts after these do so on what is left. A repetition that takes a character every time
round therefore comes to its end before it has gone round as often as the text has characters. To
allow it more rounds changes nothing.
-/

namespace CoinWire.Text.Scan

variable {α β : Type} {scan scan' : Scan α} {limit : Nat}

/-- A part that may be left out answers in any case, and takes nothing where it is not there. -/
theorem run_option (scan : Scan α) (text : List Char) :
    (option scan).run text = some ((scan.run text).elim (none, text) (Prod.map some id)) := by
  have hmap : (some <$> scan).run text = (scan.run text).map (Prod.map some id) := by
    change (scan >>= pure ∘ some).run text = _
    rw [run_bind]
    cases scan.run text <;> rfl
  rw [option, run_orElse, hmap]
  cases scan.run text <;> rfl

/-! ## Taking characters -/

/-- Where the scan answers, it has taken a character. -/
def Takes (scan : Scan α) : Prop :=
  ∀ text a rest, scan.run text = some (a, rest) → rest.length < text.length

theorem length_le {text rest : List Char} {a : α} (h : scan.run text = some (a, rest)) :
    rest.length ≤ text.length :=
  (scan.isSuffix h).length_le

/-- A bind that answers has the answers of both its parts. -/
theorem run_bind_eq_some {next : α → Scan β} {text rest : List Char} {b : β}
    (h : (scan >>= next).run text = some (b, rest)) :
    ∃ a middle, scan.run text = some (a, middle) ∧ (next a).run middle = some (b, rest) := by
  rw [run_bind] at h
  cases hscan : scan.run text with
  | none => simp [hscan] at h
  | some answer =>
    rw [hscan] at h
    exact ⟨answer.1, answer.2, rfl, h⟩

theorem Takes.bind (h : scan.Takes) (next : α → Scan β) : (scan >>= next).Takes := by
  intro text b rest hrun
  obtain ⟨a, middle, hscan, hnext⟩ := run_bind_eq_some hrun
  exact (length_le hnext).trans_lt (h _ _ _ hscan)

/-- It is enough that the second part takes a character. -/
theorem takes_bind {next : α → Scan β} (h : ∀ a, (next a).Takes) : (scan >>= next).Takes := by
  intro text b rest hrun
  obtain ⟨a, middle, hscan, hnext⟩ := run_bind_eq_some hrun
  exact (h a _ _ _ hnext).trans_le (length_le hscan)

theorem Takes.orElse (h : scan.Takes) (h' : scan'.Takes) : (scan <|> scan').Takes := by
  intro text a rest hrun
  rw [run_orElse] at hrun
  cases hscan : scan.run text with
  | none =>
    rw [hscan] at hrun
    exact h' _ _ _ hrun
  | some answer =>
    rw [hscan] at hrun
    exact h _ _ _ (hscan.trans hrun)

theorem takes_one (isMember : Char → Bool) : (one isMember).Takes := by
  intro text a left h
  cases text with
  | nil => contradiction
  | cons c rest =>
    simp only [one, Option.ite_none_right_eq_some, Option.some.injEq, Prod.mk.injEq] at h
    rw [← h.2.2]
    exact Nat.lt_succ_self _

theorem takes_char (c : Char) : (char c).Takes :=
  (takes_one _).bind _

theorem takes_literal {expected : List Char} (h : expected ≠ []) : (literal expected).Takes := by
  intro text a rest hrun
  simp only [literal, Option.ite_none_right_eq_some, Option.some.injEq, Prod.mk.injEq] at hrun
  obtain ⟨hexpected, -, hrest⟩ := hrun
  have hlength := (List.isPrefixOf_iff_prefix.1 hexpected).length_le
  have hpos := List.length_pos_iff.2 h
  rw [← hrest, List.length_drop]
  omega

/-! ## Short texts -/

/-- The scans do the same on every text that is shorter than `limit`. -/
def SameBelow (limit : Nat) (scan scan' : Scan α) : Prop :=
  ∀ text : List Char, text.length < limit → scan.run text = scan'.run text

namespace SameBelow

theorem refl (limit : Nat) (scan : Scan α) : SameBelow limit scan scan :=
  fun _ _ ↦ rfl

theorem zero (scan scan' : Scan α) : SameBelow 0 scan scan' :=
  nofun

theorem bind {next next' : α → Scan β} (h : SameBelow limit scan scan')
    (hnext : ∀ a, SameBelow limit (next a) (next' a)) :
    SameBelow limit (scan >>= next) (scan' >>= next') := by
  intro text hshort
  rw [run_bind, run_bind, ← h text hshort]
  cases hscan : scan.run text with
  | none => rfl
  | some answer => exact hnext answer.1 answer.2 ((length_le hscan).trans_lt hshort)

/-- What follows a scan is all that has to be compared. -/
theorem after (scan : Scan α) {next next' : α → Scan β}
    (hnext : ∀ a, SameBelow limit (next a) (next' a)) :
    SameBelow limit (scan >>= next) (scan >>= next') :=
  (refl limit scan).bind hnext

end SameBelow

/-- Behind a character that was taken the texts are shorter. -/
theorem Takes.sameBelow (h : scan.Takes) {next next' : α → Scan β}
    (hnext : ∀ a, SameBelow limit (next a) (next' a)) :
    SameBelow (limit + 1) (scan >>= next) (scan >>= next') := by
  intro text hshort
  rw [run_bind, run_bind]
  cases hscan : scan.run text with
  | none => rfl
  | some answer =>
    exact hnext answer.1 answer.2 ((h _ _ _ hscan).trans_le (Nat.le_of_lt_succ hshort))

/-- Where a part that may be left out is there, the texts behind it are shorter. -/
theorem Takes.sameBelow_option (h : scan.Takes) {next next' : Option α → Scan β}
    (hsome : ∀ a, SameBelow limit (next (some a)) (next' (some a)))
    (hnone : SameBelow (limit + 1) (next none) (next' none)) :
    SameBelow (limit + 1) (option scan >>= next) (option scan >>= next') := by
  intro text hshort
  rw [run_bind, run_bind, run_option]
  cases hscan : scan.run text with
  | none => exact hnone text hshort
  | some answer =>
    exact hsome answer.1 answer.2 ((h _ _ _ hscan).trans_le (Nat.le_of_lt_succ hshort))

/-! ## Fuel -/

/-- If no unit of fuel above `enough` changes what is done, then all fuel from there on does the
same. -/
theorem run_eq_of_enough {scan : Nat → Scan α} {text : List Char} {enough fuel : Nat}
    (hstep : ∀ fuel, enough ≤ fuel → (scan fuel).run text = (scan (fuel + 1)).run text)
    (h : enough ≤ fuel) : (scan fuel).run text = (scan enough).run text := by
  induction fuel, h using Nat.le_induction with
  | base => rfl
  | succ fuel hfuel ih => rw [← hstep fuel hfuel, ih]

/-- One unit of fuel for each character, and one more, is enough where the fuel counts the
characters. -/
theorem run_eq_of_sameBelow {scan : Nat → Scan α}
    (hstep : ∀ fuel, SameBelow fuel (scan fuel) (scan (fuel + 1))) {text : List Char} {fuel : Nat}
    (h : text.length < fuel) : (scan fuel).run text = (scan (text.length + 1)).run text :=
  run_eq_of_enough (fun more hmore ↦ hstep more text hmore) h

end CoinWire.Text.Scan
