import Mathlib
import CoinWire.Proofs.Exchange

/-!
# Sums that stay within bounds

Amounts are added one after the other, and each sum that would pass a bound stays at it. Such a sum
is the exact one limited to a range, but not always to the range of amounts: what was cut off at one
bound is missing when later amounts lead away from it. So the order of the amounts matters, unless
the gains alone and the losses alone stay within the bounds, or there are only gains or only losses.
-/

namespace CoinWire.Transaction

/-- The amount that is nearest to a total. -/
def nearest (total : Int) : Int64 :=
  Int64.ofInt (max (-2 ^ 63) (min total (2 ^ 63 - 1)))

/-- Sums outside the range come to its nearer end. -/
theorem toInt_nearest (total : Int) :
    (nearest total).toInt = max (-2 ^ 63) (min total (2 ^ 63 - 1)) :=
  Int64.toInt_ofInt_of_le (by omega) (by omega)

/-- A saturating sum is the exact one, brought into the range. -/
theorem saturatingAdd_eq_nearest (a b : Int64) :
    saturatingAdd a b = nearest (a.toInt + b.toInt) := by
  rw [← Int64.toInt_inj, toInt_nearest]
  unfold saturatingAdd
  simp only [Int64.toInt_minValue, Int64.toInt_maxValue]
  split_ifs with hlow hhigh
  · rw [Int64.toInt_minValue]
    omega
  · rw [Int64.toInt_maxValue]
    omega
  · rw [Int64.toInt_ofInt_of_le (by omega) (by omega)]
    omega

/-! ## Totals -/

/-- The exact sum. -/
def total (values : List Int64) : Int :=
  (values.map Int64.toInt).sum

/-- The total of the amounts above zero. -/
def gains (values : List Int64) : Int :=
  (values.map fun value ↦ max value.toInt 0).sum

/-- The total of the amounts below zero. -/
def losses (values : List Int64) : Int :=
  (values.map fun value ↦ min value.toInt 0).sum

section

variable (value : Int64) (values : List Int64)

@[simp]
theorem total_nil : total [] = 0 := rfl

@[simp]
theorem total_cons : total (value :: values) = value.toInt + total values := rfl

@[simp]
theorem gains_nil : gains [] = 0 := rfl

@[simp]
theorem gains_cons : gains (value :: values) = max value.toInt 0 + gains values := rfl

@[simp]
theorem losses_nil : losses [] = 0 := rfl

@[simp]
theorem losses_cons : losses (value :: values) = min value.toInt 0 + losses values := rfl

theorem gains_nonneg : 0 ≤ gains values := by
  induction values with
  | nil => simp
  | cons value values ih =>
    rw [gains_cons]
    omega

theorem losses_nonpos : losses values ≤ 0 := by
  induction values with
  | nil => simp
  | cons value values ih =>
    rw [losses_cons]
    omega

/-- Every sum is made up of what is gained and what is lost. -/
theorem total_eq_gains_add_losses : total values = gains values + losses values := by
  induction values with
  | nil => simp
  | cons value values ih =>
    rw [total_cons, gains_cons, losses_cons]
    omega

theorem total_concat : total (values ++ [value]) = total values + value.toInt := by
  simp [total]

theorem gains_append (values rest : List Int64) :
    gains (values ++ rest) = gains values + gains rest := by
  simp [gains]

theorem losses_append (values rest : List Int64) :
    losses (values ++ rest) = losses values + losses rest := by
  simp [losses]

end

theorem total_perm {values order : List Int64} (h : order.Perm values) :
    total order = total values :=
  (h.map _).sum_eq

theorem gains_perm {values order : List Int64} (h : order.Perm values) :
    gains order = gains values :=
  (h.map _).sum_eq

theorem losses_perm {values order : List Int64} (h : order.Perm values) :
    losses order = losses values :=
  (h.map _).sum_eq

/-! ## One order -/

/-- Where no sum on the way passes a bound, nothing is cut off. -/
theorem toInt_foldl_eq_total {values : List Int64}
    (h : ∀ front, front <+: values → -2 ^ 63 ≤ total front ∧ total front < 2 ^ 63) :
    (values.foldl saturatingAdd 0).toInt = total values := by
  induction values using List.reverseRecOn with
  | nil => rfl
  | append_singleton values value ih =>
    have hvalues := ih fun front hfront ↦ h front (hfront.trans (List.prefix_append _ _))
    have hwhole := h _ List.prefix_rfl
    rw [List.foldl_concat, saturatingAdd_eq_nearest, toInt_nearest, hvalues, ← total_concat]
    omega

/-- The exact sum is limited to the range that the amounts make of the whole range. Each step moves
the range as it moves the sum, and limits both to all amounts. -/
theorem toInt_foldl_saturatingAdd (values : List Int64) :
    (values.foldl saturatingAdd Int64.minValue).toInt ≤
        (values.foldl saturatingAdd Int64.maxValue).toInt ∧
      ∀ start : Int64, (values.foldl saturatingAdd start).toInt =
        max (values.foldl saturatingAdd Int64.minValue).toInt
          (min (start.toInt + total values) (values.foldl saturatingAdd Int64.maxValue).toInt) := by
  induction values using List.reverseRecOn with
  | nil =>
    refine ⟨by decide, fun start ↦ ?_⟩
    have hlow := start.le_toInt
    have hhigh := start.toInt_lt
    simp only [List.foldl_nil, total_nil, Int64.toInt_minValue, Int64.toInt_maxValue]
    omega
  | append_singleton values value ih =>
    obtain ⟨hrange, hlimited⟩ := ih
    simp only [List.foldl_concat, saturatingAdd_eq_nearest, toInt_nearest, total_concat]
    refine ⟨by omega, fun start ↦ ?_⟩
    rw [hlimited start]
    omega

/-- From zero the answer is the nearest amount to the exact sum just if that lies in the range. -/
theorem foldl_saturatingAdd_eq_nearest_iff {values : List Int64} :
    values.foldl saturatingAdd 0 = nearest (total values) ↔
      values.foldl saturatingAdd Int64.minValue ≤ nearest (total values) ∧
        nearest (total values) ≤ values.foldl saturatingAdd Int64.maxValue := by
  obtain ⟨hrange, hlimited⟩ := toInt_foldl_saturatingAdd values
  have hlow := (values.foldl saturatingAdd Int64.minValue).le_toInt
  have hhigh := (values.foldl saturatingAdd Int64.maxValue).toInt_lt
  rw [← Int64.toInt_inj, Int64.le_iff_toInt_le, Int64.le_iff_toInt_le, hlimited 0, toInt_nearest,
    Int64.toInt_zero]
  omega

/-! ## Any order -/

/-- Whatever the order of the amounts, no sum that is cut at one bound can lead away from it. -/
structure OrderFree (start : Int) (values : List Int64) : Prop where
  losses_eq_zero : 2 ^ 63 - 1 < start + gains values → losses values = 0
  gains_eq_zero : start + losses values < -2 ^ 63 → gains values = 0

/-- Without losses the order does not matter: once at the upper end, the sum stays there. -/
theorem orderFree_of_losses_eq_zero (start : Int64) {values : List Int64} (h : losses values = 0) :
    OrderFree start.toInt values := by
  have hlow := start.le_toInt
  exact ⟨fun _ ↦ h, fun _ ↦ by omega⟩

/-- Without gains the order does not matter: once at the lower end, the sum stays there. -/
theorem orderFree_of_gains_eq_zero (start : Int64) {values : List Int64} (h : gains values = 0) :
    OrderFree start.toInt values := by
  have hhigh := start.toInt_lt
  exact ⟨fun _ ↦ by omega, fun _ ↦ h⟩

/-- Gains and losses do not depend on the order, and so this does not either. -/
theorem OrderFree.perm {start : Int} {values order : List Int64} (h : OrderFree start values)
    (horder : order.Perm values) : OrderFree start order := by
  obtain ⟨hgains, hlosses⟩ := h
  rw [← gains_perm horder, ← losses_perm horder] at hgains hlosses
  exact ⟨hgains, hlosses⟩

/-- One step of the sum leaves it that way for the amounts that are left. -/
theorem OrderFree.tail {start value : Int64} {values : List Int64}
    (h : OrderFree start.toInt (value :: values)) :
    OrderFree (saturatingAdd start value).toInt values := by
  obtain ⟨hgains, hlosses⟩ := h
  have hgain := gains_nonneg values
  have hloss := losses_nonpos values
  rw [gains_cons, losses_cons] at hgains hlosses
  rw [saturatingAdd_eq_nearest, toInt_nearest]
  exact ⟨by omega, by omega⟩

/-- Where the order does not matter, the saturating sum is the exact one brought into the range. -/
theorem OrderFree.foldl_eq {start : Int64} {values : List Int64}
    (h : OrderFree start.toInt values) :
    values.foldl saturatingAdd start = nearest (start.toInt + total values) := by
  induction values generalizing start with
  | nil =>
    have hlow := start.le_toInt
    have hhigh := start.toInt_lt
    rw [List.foldl_nil, ← Int64.toInt_inj, toInt_nearest, total_nil]
    omega
  | cons value values ih =>
    rw [List.foldl_cons, ih h.tail, ← Int64.toInt_inj, toInt_nearest, toInt_nearest,
      saturatingAdd_eq_nearest, toInt_nearest, total_cons]
    obtain ⟨hgains, hlosses⟩ := h
    have hgain := gains_nonneg values
    have hloss := losses_nonpos values
    have htotal := total_eq_gains_add_losses values
    rw [gains_cons, losses_cons] at hgains hlosses
    omega

/-- The amounts that take no sum down. -/
def rises (values : List Int64) : List Int64 :=
  values.filter fun value ↦ decide (0 ≤ value.toInt)

/-- The values that are not above zero. -/
def falls (values : List Int64) : List Int64 :=
  values.filter fun value ↦ !decide (0 ≤ value.toInt)

/-- All rises before all falls is an order of the values. -/
theorem rises_append_falls_perm (values : List Int64) :
    (rises values ++ falls values).Perm values :=
  List.filter_append_perm _ values

theorem totals_rises (values : List Int64) :
    gains (rises values) = gains values ∧ losses (rises values) = 0 := by
  induction values with
  | nil => exact ⟨rfl, rfl⟩
  | cons value values ih =>
    unfold rises at ih ⊢
    by_cases h : 0 ≤ value.toInt
    · simp [h, ih]
    · simp [h, ih]
      omega

theorem totals_falls (values : List Int64) :
    gains (falls values) = 0 ∧ losses (falls values) = losses values := by
  obtain ⟨hgains, hlosses⟩ := totals_rises values
  have hgain := gains_perm (rises_append_falls_perm values)
  have hloss := losses_perm (rises_append_falls_perm values)
  rw [gains_append] at hgain
  rw [losses_append] at hloss
  omega

/-- The rises alone are summed up exactly, up to the upper end. -/
theorem toInt_foldl_rises (values : List Int64) (start : Int64) :
    ((rises values).foldl saturatingAdd start).toInt =
      max (-2 ^ 63) (min (start.toInt + gains values) (2 ^ 63 - 1)) := by
  obtain ⟨hgains, hlosses⟩ := totals_rises values
  rw [(orderFree_of_losses_eq_zero start hlosses).foldl_eq, toInt_nearest,
    total_eq_gains_add_losses, hgains, hlosses, add_zero]

/-- The falls alone are summed up exactly, down to the lower end. -/
theorem toInt_foldl_falls (values : List Int64) (start : Int64) :
    ((falls values).foldl saturatingAdd start).toInt =
      max (-2 ^ 63) (min (start.toInt + losses values) (2 ^ 63 - 1)) := by
  obtain ⟨hgains, hlosses⟩ := totals_falls values
  rw [(orderFree_of_gains_eq_zero start hgains).foldl_eq, toInt_nearest,
    total_eq_gains_add_losses, hgains, hlosses, zero_add]

/-- Where a bound can be passed and left again, gains first and losses first differ. -/
theorem foldl_ne_of_not_orderFree {values : List Int64} (h : ¬OrderFree 0 values) :
    (rises values ++ falls values).foldl saturatingAdd 0 ≠
      (falls values ++ rises values).foldl saturatingAdd 0 := by
  have hgain := gains_nonneg values
  have hloss := losses_nonpos values
  rw [ne_eq, ← Int64.toInt_inj, List.foldl_append, List.foldl_append, toInt_foldl_falls,
    toInt_foldl_rises, toInt_foldl_rises, toInt_foldl_falls, Int64.toInt_zero]
  intro hsame
  exact h ⟨by omega, by omega⟩

/-! ## Building transactions -/

/-- A new transaction to which the outputs were added. -/
def ofOutputs (outputs : List TxOut) : Transaction :=
  let nodes := outputs.map fun output ↦ Output.new output.value output.script
  Node.ofFields ⟨currentVersion, 0, [], nodes, 0⟩ ParseConfig.eager

/-- Transactions with any outputs in any order can come about. -/
theorem reachable_ofOutputs (outputs : List TxOut) :
    (Item.transaction (ofOutputs outputs)).Reachable := by
  induction outputs using List.reverseRecOn with
  | nil => exact @Item.Reachable.of_make (.newTransaction 0) _ rfl
  | append_singleton outputs output ih =>
    let child := Item.output (Output.new output.value output.script)
    have hchild : child.Reachable :=
      @Item.Reachable.of_make (.newOutput output.value output.script) _ rfl
    let operations : List Operation := [.add ⟨"to", none, none, none⟩ ⟨"from", none, none, none⟩]
    let bench : Workbench Item := ⟨[("to", .transaction (ofOutputs outputs)), ("from", child)]⟩
    have hbench : ∀ slot ∈ bench.slots, slot.2.Reachable :=
      List.forall_mem_cons.2 ⟨ih, List.forall_mem_singleton.2 hchild⟩
    have hslots : (Workbench.run Workbench.perform operations bench).2.slots =
        [("to", .transaction (ofOutputs (outputs ++ [output]))), ("from", child)] := by
      rw [ofOutputs, List.map_append]
      rfl
    have hslot : ("to", Item.transaction (ofOutputs (outputs ++ [output]))) ∈
        (Workbench.run Workbench.perform operations bench).2.slots := by
      rw [hslots]
      exact List.mem_cons_self
    exact .run operations hbench hslot

theorem holds_ofOutputs (outputs : List TxOut) :
    Holder.Holds (ofOutputs outputs) ⟨currentVersion, 0, [], outputs, 0⟩ := by
  have houtputs : Holder.Holds (outputs.map fun output ↦ Output.new output.value output.script)
      outputs := by
    apply List.forall₂_map_left_iff.2
    apply List.forall₂_same.2
    intro output _
    exact Node.holds_ofFields rfl _
  have hfields : TxFields.Holds ⟨currentVersion, 0, [],
      outputs.map fun output ↦ Output.new output.value output.script, 0⟩
      ⟨currentVersion, 0, [], outputs, 0⟩ := ⟨rfl, rfl, .nil, houtputs, rfl⟩
  exact Node.holds_ofFields hfields _

/-- The transaction has the outputs it was built of, in their order. -/
theorem contents_ofOutputs (outputs : List TxOut) :
    contents.answer (ofOutputs outputs) = .ok ⟨currentVersion, 0, [], outputs, 0⟩ :=
  looks_contents.answer_eq_mapError (holds_ofOutputs outputs)

/-! ## Output values -/

/-- A transaction that can come about and has the same outputs in any order. -/
def Reorders (other : Transaction) (tx : Tx) : Prop :=
  (Item.transaction other).Reachable ∧
    ∃ tx', contents.answer other = .ok tx' ∧ tx'.outputs.Perm tx.outputs

/-- The output value is the saturating sum of the values in the order of the outputs. -/
theorem answer_outputValue {transaction : Transaction} {tx : Tx}
    (h : (Item.transaction transaction).Reachable)
    (hcontents : contents.answer transaction = .ok tx) :
    outputValue.answer transaction =
      .ok ((tx.outputs.map TxOut.value).foldl saturatingAdd 0) := by
  obtain ⟨_, _ | @⟨_, v, hholds⟩⟩ := h.holds
  have hfound : contents.answer transaction = .ok v :=
    looks_contents.answer_eq_mapError hholds
  obtain rfl : tx = v := Except.ok.inj (hcontents.symm.trans hfound)
  exact looks_outputValue.answer_eq_mapError hholds

/-- Each order of the amounts is that of a transaction that can come about. -/
theorem exists_reorders {tx : Tx} {order : List Int64}
    (horder : order.Perm (tx.outputs.map TxOut.value)) :
    ∃ other : Transaction, other.Reorders tx ∧
      outputValue.answer other = .ok (order.foldl saturatingAdd 0) := by
  have hmap := congrFun₂ (List.eq_map_comp_perm TxOut.value) order tx.outputs
  obtain ⟨outputs, rfl, houtputs⟩ := hmap.mpr horder
  have hreachable := reachable_ofOutputs outputs
  have hcontents := contents_ofOutputs outputs
  exact ⟨ofOutputs outputs, ⟨hreachable, _, hcontents, houtputs⟩,
    answer_outputValue hreachable hcontents⟩

/-- The sum of the outputs can always be had. It is the exact total where no sum on the way passes a
bound, and the amount nearest to it just if that is in the range which the outputs, taken in their
order, make of the whole range. It is so in every order of the outputs, and the same in every order,
just if gains alone and losses alone pass no bound, or there is only one of the two. -/
theorem outputValue_eq_nearest_iff {transaction : Transaction}
    (h : (Item.transaction transaction).Reachable) :
    ∃ tx answer, contents.answer transaction = .ok tx ∧
      outputValue.answer transaction = .ok answer ∧
      let values := tx.outputs.map TxOut.value
      ((∀ front, front <+: values → -2 ^ 63 ≤ total front ∧ total front < 2 ^ 63) →
        answer.toInt = total values) ∧
      (answer = nearest (total values) ↔
        values.foldl saturatingAdd Int64.minValue ≤ nearest (total values) ∧
          nearest (total values) ≤ values.foldl saturatingAdd Int64.maxValue) ∧
      ((∀ other : Transaction, other.Reorders tx →
        outputValue.answer other = .ok (nearest (total values))) ↔ OrderFree 0 values) ∧
      ((∀ other : Transaction, other.Reorders tx → outputValue.answer other = .ok answer) ↔
        OrderFree 0 values) := by
  obtain ⟨_, _ | @⟨_, tx, hholds⟩⟩ := h.holds
  have hcontents : contents.answer transaction = .ok tx :=
    looks_contents.answer_eq_mapError hholds
  refine ⟨tx, _, hcontents, answer_outputValue h hcontents, ?_⟩
  intro values
  have hfree (horders : OrderFree 0 values) (other : Transaction) (hother : other.Reorders tx) :
      outputValue.answer other = .ok (nearest (total values)) := by
    obtain ⟨hreachable, tx', hcontents', hperm⟩ := hother
    have hvalues := hperm.map TxOut.value
    have hfold := @OrderFree.foldl_eq 0 _ (horders.perm hvalues)
    rw [answer_outputValue hreachable hcontents', hfold, total_perm hvalues, Int64.toInt_zero,
      zero_add]
  have hbound (answer : Int64)
      (hall : ∀ other : Transaction, other.Reorders tx → outputValue.answer other = .ok answer) :
      OrderFree 0 values := by
    by_contra horders
    obtain ⟨first, hfirst, hgains⟩ := exists_reorders (rises_append_falls_perm values)
    obtain ⟨second, hsecond, hlosses⟩ :=
      exists_reorders (List.perm_append_comm.trans (rises_append_falls_perm values))
    apply foldl_ne_of_not_orderFree horders
    rw [hall first hfirst] at hgains
    rw [hall second hsecond] at hlosses
    exact Except.ok.inj (hgains.symm.trans hlosses)
  have hself : transaction.Reorders tx := ⟨h, tx, hcontents, .refl _⟩
  refine ⟨toInt_foldl_eq_total, foldl_saturatingAdd_eq_nearest_iff, ⟨hbound _, hfree⟩,
    ⟨hbound _, ?_⟩⟩
  intro horders other hother
  rw [hfree horders other hother, ← hfree horders transaction hself]
  exact answer_outputValue h hcontents

/-- Two outputs have more than the highest amount together. As there is no loss, either order comes
to the highest amount. -/
theorem outputValue_eq_nearest_iff_gains :
    let encoding : Bytes := [1] ++ List.replicate 8 0 ++ [2] ++ List.replicate 7 0xFF ++
      [0x7F, 0, 5] ++ List.replicate 12 0
    let transaction : Transaction := ⟨some encoding, true, .deferredRetain, none, none⟩
    let tx : Tx := ⟨1, 0, [], [⟨Int64.maxValue, []⟩, ⟨5, []⟩], 0⟩
    (Item.transaction transaction).Reachable ∧
      outputValue.answer transaction = .ok Int64.maxValue ∧
      ∀ other : Transaction, other.Reorders tx → outputValue.answer other = .ok Int64.maxValue := by
  intro encoding transaction tx
  have hreachable : (Item.transaction transaction).Reachable :=
    @Item.Reachable.of_make (.transaction encoding .deferredRetain) _ (by cbv)
  have hcontents : contents.answer transaction = .ok tx := by cbv
  have hvalue : outputValue.answer transaction = .ok Int64.maxValue := by cbv
  obtain ⟨tx', answer, hcontents', hanswer, -, -, -, hsame⟩ := outputValue_eq_nearest_iff hreachable
  obtain rfl : tx = tx' := Except.ok.inj (hcontents.symm.trans hcontents')
  obtain rfl : Int64.maxValue = answer := Except.ok.inj (hvalue.symm.trans hanswer)
  have horders : OrderFree 0 (tx.outputs.map TxOut.value) :=
    orderFree_of_losses_eq_zero 0 (by decide)
  exact ⟨hreachable, hvalue, hsame.2 horders⟩

/-- The highest amount, a gain of one and a loss of one come to the highest amount. In this order
the gain is cut off and the loss is not; in another order nothing is. -/
theorem outputValue_depends_on_order :
    let first := ofOutputs [⟨Int64.maxValue, []⟩, ⟨1, []⟩, ⟨-1, []⟩]
    let second := ofOutputs [⟨1, []⟩, ⟨-1, []⟩, ⟨Int64.maxValue, []⟩]
    ∃ tx, (Item.transaction first).Reachable ∧ contents.answer first = .ok tx ∧
      total (tx.outputs.map TxOut.value) = Int64.maxValue.toInt ∧
      outputValue.answer first = .ok (Int64.maxValue - 1) ∧
      second.Reorders tx ∧ outputValue.answer second = .ok Int64.maxValue := by
  intro first second
  have hfirst : (Item.transaction first).Reachable := reachable_ofOutputs _
  have hsecond : (Item.transaction second).Reachable := reachable_ofOutputs _
  have hcontents := contents_ofOutputs [⟨Int64.maxValue, []⟩, ⟨1, []⟩, ⟨-1, []⟩]
  have hcontents' := contents_ofOutputs [⟨1, []⟩, ⟨-1, []⟩, ⟨Int64.maxValue, []⟩]
  refine ⟨_, hfirst, hcontents, by decide, ?_, ⟨hsecond, _, hcontents', ?_⟩, ?_⟩
  · rw [answer_outputValue hfirst hcontents]
    decide
  · exact @List.perm_append_comm _ [_, _] [_]
  · rw [answer_outputValue hsecond hcontents']
    decide

end CoinWire.Transaction
