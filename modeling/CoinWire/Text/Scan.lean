/-!
# Scanning characters

A scan takes characters off the front of a text and answers, or fails. A failed scan has taken
nothing, so another may be tried in its place.
-/

namespace CoinWire.Text

/-- What a text comes to: an answer and what is left of the text, or nothing. -/
structure Scan (α : Type) where
  run : List Char → Option (α × List Char)
  isSuffix : ∀ {text a rest}, run text = some (a, rest) → rest <:+ text

namespace Scan

variable {α β : Type}

instance : Monad Scan where
  pure a := {
    run := fun text ↦ some (a, text)
    isSuffix := by
      intro text a rest h
      injection h with h
      injection h with _ hrest
      exact hrest ▸ List.suffix_rfl }
  bind scan next := {
    run := fun text ↦
      match scan.run text with
      | none => none
      | some (a, rest) => (next a).run rest
    isSuffix := by
      intro text b rest h
      cases hscan : scan.run text with
      | none => simp [hscan] at h
      | some answer =>
        rw [hscan] at h
        exact ((next answer.1).isSuffix h).trans (scan.isSuffix hscan) }

instance : Alternative Scan where
  failure := ⟨fun _ ↦ none, nofun⟩
  orElse scan other := {
    run := fun text ↦
      match scan.run text with
      | none => (other ()).run text
      | some answer => some answer
    isSuffix := by
      intro text a rest h
      cases hscan : scan.run text with
      | none =>
        rw [hscan] at h
        exact (other ()).isSuffix h
      | some answer =>
        rw [hscan] at h
        exact scan.isSuffix (hscan.trans h) }

/-- A value that is there or not, whatever the text. Nothing is taken. -/
instance : MonadLift Option Scan where
  monadLift
    | none => failure
    | some a => pure a

theorem run_bind (scan : Scan α) (next : α → Scan β) (text : List Char) :
    (scan >>= next).run text =
      match scan.run text with
      | none => none
      | some (a, rest) => (next a).run rest := rfl

theorem run_orElse (scan other : Scan α) (text : List Char) :
    (scan <|> other).run text =
      match scan.run text with
      | none => other.run text
      | some answer => some answer := rfl

/-- All that is left, which is not taken. -/
def ahead : Scan (List Char) where
  run text := some (text, text)
  isSuffix := by
    rintro text _ _ ⟨⟩
    exact List.suffix_rfl

/-- The next character, which is not taken. -/
def peek? : Scan (Option Char) := do
  return (← ahead).head?

/-- Takes the next character if it is one of a class. -/
def one (isMember : Char → Bool) : Scan Char where
  run
    | [] => none
    | c :: rest => if isMember c then some (c, rest) else none
  isSuffix := by
    intro text a left h
    cases text with
    | nil => contradiction
    | cons c rest =>
      dsimp only at h
      split at h
      · injection h with h
        injection h with _ hleft
        exact hleft ▸ List.suffix_cons c rest
      · contradiction

def char (c : Char) : Scan Unit :=
  discard (one (· == c))

def literal (expected : List Char) : Scan Unit where
  run text :=
    if expected.isPrefixOf text then some ((), text.drop expected.length) else none
  isSuffix := by
    intro text _ rest h
    split at h
    · injection h with h
      injection h with _ hrest
      exact hrest ▸ List.drop_suffix _ _
    · contradiction

/-- Takes all characters of a class. -/
def span (isMember : Char → Bool) : Scan (List Char) where
  run text := some (text.takeWhile isMember, text.dropWhile isMember)
  isSuffix := by
    rintro text _ _ ⟨⟩
    exact List.dropWhile_suffix _

/-- As `span`, at least one character. -/
def span1 (isMember : Char → Bool) : Scan (List Char) := do
  let taken ← span isMember
  if taken.isEmpty then failure else return taken

/-- Exactly `count` characters of a class. -/
def exactly (count : Nat) (isMember : Char → Bool) : Scan (List Char) where
  run text :=
    let taken := text.take count
    if taken.length = count ∧ taken.all isMember then some (taken, text.drop count) else none
  isSuffix := by
    intro text _ rest h
    dsimp only at h
    split at h
    · injection h with h
      injection h with _ hrest
      exact hrest ▸ List.drop_suffix _ _
    · contradiction

def option (scan : Scan α) : Scan (Option α) :=
  (some <$> scan) <|> pure none

/-- Nothing is left. -/
def atEnd : Scan Unit := do
  if (← ahead).isEmpty then return () else failure

/-- The answer of a scan that takes the whole text. -/
def whole? (scan : Scan α) (text : String) : Option α := do
  let (a, rest) ← scan.run text.toList
  if rest.isEmpty then some a else none

end Scan

/-! ## Digits -/

def isDigit (c : Char) : Bool :=
  '0' ≤ c && c ≤ '9'

def isHexDigit (c : Char) : Bool :=
  isDigit c || ('a' ≤ c && c ≤ 'f') || ('A' ≤ c && c ≤ 'F')

/-- The value of a digit in any base up to sixteen. -/
def digitValue (c : Char) : Nat :=
  if isDigit c then c.toNat - 48
  else if 'a' ≤ c && c ≤ 'f' then c.toNat - 87
  else c.toNat - 55

/-- The number that digits are written for. -/
def ofDigits (base : Nat) (digits : List Char) : Nat :=
  digits.foldl (fun value c ↦ base * value + digitValue c) 0

end CoinWire.Text
