import Mathlib
import CoinWire.Proofs.Exchange
import CoinWire.Proofs.Growth.Routes

/-!
# Scripts and their owners

A script has at most one of three forms, and the form says which bytes a wallet is asked about. A
form fixes every byte of the script but these and their number, so nothing may stand before or
behind it. An output answers for the script of the value it holds, whether or not that was parsed
before.
-/

namespace CoinWire

open Holder

namespace Script

/-! ## Forms -/

namespace Template

/-- The script is of this form, with these bytes in it. Of the form `nonStandard` is none. -/
def Describes (script : Bytes) : Template → Prop
  | payToPubKeyHash hash => hash.length = 20 ∧ script = [0x76, 0xa9, 20] ++ hash ++ [0x88, 0xac]
  | payToScriptHash hash => hash.length = 20 ∧ script = [0xa9, 20] ++ hash ++ [0x87]
  | payToPubKey key =>
    (key.length = 33 ∨ key.length = 65) ∧ script = [UInt8.ofNat key.length] ++ key ++ [0xac]
  | nonStandard => False

variable {template other : Template} {script hash key : Bytes}

theorem between?_eq_some_iff {length : Nat} {tail bytes found : Bytes} :
    between? length tail bytes = some found ↔ found.length = length ∧ bytes = found ++ tail := by
  unfold between?
  constructor
  · intro h
    split_ifs at h with hbytes
    obtain ⟨hlength, htail⟩ := hbytes
    obtain rfl := Option.some.inj h
    refine ⟨hlength, ?_⟩
    rw [← htail, List.take_append_drop]
  · rintro ⟨rfl, rfl⟩
    simp

theorem payToPubKeyHash?_eq_some_iff :
    payToPubKeyHash? script = some hash ↔ (payToPubKeyHash hash).Describes script := by
  constructor
  · intro h
    unfold payToPubKeyHash? at h
    split at h
    · split_ifs at h with hstart
      obtain ⟨rfl, rfl, rfl⟩ := hstart
      obtain ⟨hlength, rfl⟩ := between?_eq_some_iff.1 h
      exact ⟨hlength, rfl⟩
    · contradiction
  · rintro ⟨hlength, rfl⟩
    exact between?_eq_some_iff.2 ⟨hlength, rfl⟩

theorem payToScriptHash?_eq_some_iff :
    payToScriptHash? script = some hash ↔ (payToScriptHash hash).Describes script := by
  constructor
  · intro h
    unfold payToScriptHash? at h
    split at h
    · split_ifs at h with hstart
      obtain ⟨rfl, rfl⟩ := hstart
      obtain ⟨hlength, rfl⟩ := between?_eq_some_iff.1 h
      exact ⟨hlength, rfl⟩
    · contradiction
  · rintro ⟨hlength, rfl⟩
    exact between?_eq_some_iff.2 ⟨hlength, rfl⟩

theorem payToPubKey?_eq_some_iff :
    payToPubKey? script = some key ↔ (payToPubKey key).Describes script := by
  constructor
  · intro h
    unfold payToPubKey? at h
    split at h
    · split_ifs at h with hpush
      obtain ⟨hlength, rfl⟩ := between?_eq_some_iff.1 h
      obtain rfl | rfl := hpush
      · exact ⟨.inl hlength, by rw [hlength]; rfl⟩
      · exact ⟨.inr hlength, by rw [hlength]; rfl⟩
    · contradiction
  · rintro ⟨hlength | hlength, rfl⟩
    · rw [hlength]
      exact between?_eq_some_iff.2 ⟨hlength, rfl⟩
    · rw [hlength]
      exact between?_eq_some_iff.2 ⟨hlength, rfl⟩

/-! ## Classifying -/

/-- The first byte tells the forms apart, and the bytes between the fixed ones are what is left. -/
theorem Describes.unique (h : template.Describes script) (hother : other.Describes script) :
    template = other := by
  cases template with
  | payToPubKeyHash hash =>
    obtain ⟨-, rfl⟩ := h
    cases other with
    | payToPubKeyHash hash' => simpa [Describes] using hother.2
    | payToScriptHash hash' => simp [Describes] at hother
    | payToPubKey key => obtain ⟨h | h, hscript⟩ := hother <;> simp [h] at hscript
    | nonStandard => contradiction
  | payToScriptHash hash =>
    obtain ⟨-, rfl⟩ := h
    cases other with
    | payToPubKeyHash hash' => simp [Describes] at hother
    | payToScriptHash hash' => simpa [Describes] using hother.2
    | payToPubKey key => obtain ⟨h | h, hscript⟩ := hother <;> simp [h] at hscript
    | nonStandard => contradiction
  | payToPubKey key =>
    obtain ⟨hlength, rfl⟩ := h
    cases other with
    | payToPubKeyHash hash => obtain h | h := hlength <;> simp [Describes, h] at hother
    | payToScriptHash hash => obtain h | h := hlength <;> simp [Describes, h] at hother
    | payToPubKey key' => simp_all [Describes]
    | nonStandard => contradiction
  | nonStandard => contradiction

theorem classify_cases (script : Bytes) :
    (classify script).Describes script ∨
      classify script = nonStandard ∧ ∀ template : Template, ¬template.Describes script := by
  unfold classify
  cases hfirst : payToPubKeyHash? script with
  | some hash => exact .inl (payToPubKeyHash?_eq_some_iff.1 hfirst)
  | none =>
    cases hsecond : payToScriptHash? script with
    | some hash => exact .inl (payToScriptHash?_eq_some_iff.1 hsecond)
    | none =>
      cases hthird : payToPubKey? script with
      | some key => exact .inl (payToPubKey?_eq_some_iff.1 hthird)
      | none =>
        refine .inr ⟨rfl, ?_⟩
        intro template h
        cases template with
        | payToPubKeyHash hash => simp [payToPubKeyHash?_eq_some_iff.2 h] at hfirst
        | payToScriptHash hash => simp [payToScriptHash?_eq_some_iff.2 h] at hsecond
        | payToPubKey key => simp [payToPubKey?_eq_some_iff.2 h] at hthird
        | nonStandard => exact h

/-- A script is classified by the form that describes it, and as `nonStandard` if none does. -/
theorem classify_eq_iff :
    classify script = template ↔ template.Describes script ∨
      template = nonStandard ∧ ∀ other : Template, ¬other.Describes script := by
  obtain h | ⟨hnone, hall⟩ := classify_cases script
  · constructor
    · rintro rfl
      exact .inl h
    · rintro (htemplate | ⟨-, hall⟩)
      · exact h.unique htemplate
      · exact absurd h (hall _)
  · constructor
    · rintro rfl
      exact .inr ⟨hnone, hall⟩
    · rintro (htemplate | ⟨rfl, -⟩)
      · exact absurd htemplate (hall _)
      · exact hnone

theorem isStandard_classify_iff :
    (classify script).isStandard = true ↔ ∃ template : Template, template.Describes script := by
  obtain h | ⟨hnone, hall⟩ := classify_cases script
  · refine iff_of_true ?_ ⟨_, h⟩
    cases htemplate : classify script with
    | nonStandard =>
      rw [htemplate] at h
      contradiction
    | _ => rfl
  · rw [hnone]
    exact iff_of_false (by decide) fun ⟨template, h⟩ ↦ hall template h

end Template

/-! ## Wallets -/

namespace Wallet

/-- The answer to the one question that a form puts to the wallet. -/
def knows (wallet : Wallet) : Template → Bool
  | .payToPubKeyHash hash => wallet.ownsKeyHash hash
  | .payToScriptHash hash => wallet.ownsScriptHash hash
  | .payToPubKey key => wallet.ownsKey key
  | .nonStandard => false

variable {wallet : Wallet} {script : Bytes}

theorem owns_eq_knows (wallet : Wallet) (script : Bytes) :
    wallet.owns script = wallet.knows (Template.classify script) := by
  unfold owns knows
  cases Template.classify script <;> rfl

theorem owns_iff :
    wallet.owns script = true ↔
      ∃ template : Template, template.Describes script ∧ wallet.knows template = true := by
  rw [owns_eq_knows]
  constructor
  · intro h
    obtain hdescribes | ⟨hnone, -⟩ := Template.classify_cases script
    · exact ⟨_, hdescribes, h⟩
    · rw [hnone] at h
      contradiction
  · rintro ⟨template, hdescribes, h⟩
    rwa [Template.classify_eq_iff.2 (.inl hdescribes)]

end Wallet

end Script

/-! ## Outputs -/

namespace Output

open Script

/-- A script is classified by the one form that describes it, or else by none. Any output in a
reachable tree has a script, and whether it is a wallet's is the answer that the wallet gives for
the bytes in the form; nothing else of the wallet has a part in it. Watching goes by the whole
script. -/
theorem owned_iff_described :
    (∀ script : Bytes,
      (∀ template, Template.classify script = template ↔ template.Describes script ∨
        template = .nonStandard ∧ ∀ other : Template, ¬other.Describes script) ∧
      ((Template.classify script).isStandard = true ↔
        ∃ template : Template, template.Describes script) ∧
      ∀ template other : Template, template.Describes script → other.Describes script →
        template = other) ∧
    ∀ (item : Item) (route : List Step) (output : Output), item.Reachable →
      item.at? route = some (.output output) →
        ∃ script, Output.script.answer output = .ok script ∧
          (∀ wallet : Wallet, ∃ mine, (isMine wallet).answer output = .ok mine ∧
            (mine = true ↔
              ∃ template : Template, template.Describes script ∧ wallet.knows template = true) ∧
            (isWatched wallet).answer output = .ok (wallet.watches script) ∧
            (isMineOrWatched wallet).answer output = .ok (mine || wallet.watches script)) ∧
          ∀ wallet wallet' : Wallet,
            wallet.knows (Template.classify script) = wallet'.knows (Template.classify script) →
              (isMine wallet).answer output = (isMine wallet').answer output := by
  refine ⟨fun script ↦ ⟨fun _ ↦ Template.classify_eq_iff, Template.isStandard_classify_iff,
    fun _ _ ↦ Template.Describes.unique⟩, ?_⟩
  intro item route output hitem houtput
  obtain ⟨_, hv⟩ := hitem.holds
  obtain ⟨_, hencodes⟩ := hv.exists_encodes houtput
  obtain ⟨v, hholds⟩ : ∃ v : TxOut, Holds output v := by
    cases hencodes with
    | output h => exact ⟨_, h⟩
  have hask (question : Bytes → Bool) :
      (ask question).answer output = .ok (question v.script) :=
    (looks_ask question).answer_eq_mapError hholds
  refine ⟨v.script, looks_script.answer_eq_mapError hholds, ?_, ?_⟩
  · intro wallet
    exact ⟨wallet.owns v.script, hask wallet.owns, Wallet.owns_iff, hask wallet.watches,
      (looks_isMineOrWatched wallet).answer_eq_mapError hholds⟩
  · intro wallet wallet' h
    rw [isMine, isMine, hask, hask, Wallet.owns_eq_knows, Wallet.owns_eq_knows, h]

/-- The outputs of a decoded transaction were counted and not parsed. One of them pays to the hash
that the wallet has the key of. -/
theorem owned_iff_described_hash :
    let hash : Bytes := List.replicate 20 7
    let script : Bytes := [0x76, 0xa9, 20] ++ hash ++ [0x88, 0xac]
    let encoding : Bytes := List.replicate 8 0 ++ [25] ++ script
    let output : Output := ⟨some encoding, true, .deferredRetain, none, none⟩
    let wallet : Wallet := ⟨(· == hash), fun _ ↦ false, fun _ ↦ false, fun _ ↦ false⟩
    ∃ item : Item, item.Reachable ∧ item.at? [.output 0] = some (.output output) ∧
      (isMine wallet).answer output = .ok true ∧
      (isMineOrWatched wallet).answer output = .ok true := by
  intro hash script encoding output wallet
  let whole : Bytes := List.replicate 9 0 ++ [1] ++ encoding ++ List.replicate 4 0
  obtain ⟨item, operations, hslots, houtput⟩ : ∃ item operations,
      (Workbench.run Workbench.perform operations Workbench.empty).2.slots = [("a", item)] ∧
      item.at? [.output 0] = some (.output output) :=
    ⟨_, [.make "a" (.transaction whole .deferredRetain), .get ⟨"a", none, none, none⟩ .outputCount],
      by cbv, by cbv⟩
  have hslot : ("a", item) ∈
      (Workbench.run Workbench.perform operations Workbench.empty).2.slots := by
    rw [hslots]
    exact List.mem_cons_self
  have hreachable : item.Reachable := .run operations (List.forall_mem_nil _) hslot
  obtain ⟨found, hfound, hwallets, -⟩ :=
    owned_iff_described.2 item [.output 0] output hreachable houtput
  have hscript : Output.script.answer output = .ok script := by cbv
  obtain rfl : script = found := Except.ok.inj (hscript.symm.trans hfound)
  obtain ⟨mine, hmine, hiff, -, heither⟩ := hwallets wallet
  obtain rfl : mine = true := hiff.2 ⟨.payToPubKeyHash hash, ⟨rfl, rfl⟩, beq_self_eq_true hash⟩
  exact ⟨item, hreachable, houtput, hmine, heither⟩

end Output

end CoinWire
