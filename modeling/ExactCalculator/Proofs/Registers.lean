import ExactCalculator.Proofs.Acceptance
import ExactCalculator.Registers

/-! Programs keep fractions in lowest terms. Only constructions, sums and differences reduce their
results; products, reciprocals, negations and sums with an integer are in lowest terms because their
operands are. An instruction that fails changes no register, and apart from operands that were never
set only a zero denominator, a zero divisor or a text without a value makes one fail. -/
namespace ExactCalculator
set_option autoImplicit false

/-! ## Operands -/

/-- The registers that a source reads. -/
def Source.operands : Source → List String
  | .copy a | .addInt a _ | .subInt a _ | .neg a | .inv a => [a]
  | .combine _ a b | .quotient a b | .divide a b => [a, b]
  | .ratio _ _ | .integer _ | .zero | .one | .evaluate _ => []

/-- The registers that an instruction reads. -/
def Instruction.operands : Instruction → List String
  | .assign _ source => source.operands
  | .update target _ operand => [target, operand]

theorem Operator.apply_reduced (operator : Operator) {a b : Fraction} (ha : a.Reduced)
    (hb : b.Reduced) : (operator.apply a b).Reduced := by
  cases operator with
  | add => exact ha.add hb
  | sub => exact ha.sub hb
  | mul => exact ha.mul hb

namespace Registers

variable {registers : Registers} {name : String} {value : Fraction}

/-! ## Stored fractions -/

theorem get_set_self (registers : Registers) (name : String) (value : Fraction) :
    (registers.set name value).get name = .ok value := by
  simp [get, set]

theorem get_set_of_ne {other : String} (h : other ≠ name) (registers : Registers)
    (value : Fraction) : (registers.set name value).get other = registers.get other := by
  have hne : (other == name) = false := beq_eq_false_iff_ne.2 h
  simp only [get, set, List.lookup_cons, hne]

/-- Every stored fraction is in lowest terms, the hidden ones too. -/
def AllReduced (registers : Registers) : Prop := ∀ entry ∈ registers, entry.2.Reduced

theorem AllReduced.get (h : registers.AllReduced) (hget : registers.get name = .ok value) :
    value.Reduced := by
  unfold Registers.get at hget
  split at hget
  · next stored hlookup =>
    obtain ⟨before, after, hsplit, -⟩ := List.lookup_eq_some_iff.1 hlookup
    have hmem : (name, stored) ∈ registers := by simp [hsplit]
    rw [← Except.ok.inj hget]
    exact h _ hmem
  · cases hget

theorem AllReduced.set (h : registers.AllReduced) (hvalue : value.Reduced) :
    (registers.set name value).AllReduced := by
  intro entry hmem
  rcases List.mem_cons.1 hmem with rfl | hrest
  · exact hvalue
  · exact h entry hrest

/-! ## Results -/

theorem AllReduced.get_cases (h : registers.AllReduced) (name : String) :
    registers.get name = .error (.unset name) ∨
      ∃ value, registers.get name = .ok value ∧ value.Reduced := by
  cases hlookup : registers.lookup name with
  | none =>
    left
    rw [Registers.get, hlookup]
  | some value =>
    right
    have hget : registers.get name = .ok value := by rw [Registers.get, hlookup]
    exact ⟨value, hget, h.get hget⟩

/-- One of the registers was never set. -/
def Unset (registers : Registers) (names : List String) : Prop :=
  ∃ name ∈ names, registers.get name = .error (.unset name)

/-- A denominator or a divisor is zero, or a text has no value. -/
def Undefined (registers : Registers) : Source → Prop
  | .ratio _ den => den = 0
  | .inv a => registers.get a = .ok .zero
  | .quotient _ b | .divide _ b => registers.get b = .ok .zero
  | .evaluate text => ∃ failure, ExactCalculator.evaluate text = .failure failure
  | _ => False

theorem compute_unset {source : Source} (h : registers.Unset source.operands) :
    ∃ trouble, registers.compute source = .error trouble := by
  obtain ⟨name, hmem, hget⟩ := h
  cases source with
  | ratio | integer | zero | one | evaluate => cases hmem
  | copy a | addInt a n | subInt a n | neg a | inv a =>
    obtain rfl := List.mem_singleton.1 hmem
    rw [compute, hget]
    exact ⟨_, rfl⟩
  | combine operator a b | quotient a b | divide a b =>
    rw [compute]
    cases ha : registers.get a with
    | error trouble => exact ⟨_, rfl⟩
    | ok value =>
      have hb : registers.get b = .error (.unset b) := by
        rcases List.mem_pair.1 hmem with rfl | rfl
        · rw [ha] at hget
          cases hget
        · exact hget
      rw [hb]
      exact ⟨_, rfl⟩

/-- A source whose operands are set has a fraction in lowest terms, unless it is undefined. -/
theorem compute_cases {source : Source}
    (hset : ∀ name ∈ source.operands, ∃ value, registers.get name = .ok value ∧ value.Reduced) :
    (registers.Undefined source ∧ ∃ trouble, registers.compute source = .error trouble) ∨
      (¬ registers.Undefined source ∧
        ∃ value, registers.compute source = .ok value ∧ value.Reduced) := by
  cases source with
  | ratio num den =>
    rw [compute]
    rcases Fraction.ofRatio_cases num den with ⟨hzero, hratio⟩ | ⟨hne, v, hratio, hv⟩
    · rw [hratio]
      exact .inl ⟨hzero, _, rfl⟩
    · rw [hratio]
      exact .inr ⟨hne, v, rfl, hv⟩
  | integer n => exact .inr ⟨id, _, rfl, Fraction.ofInt_reduced n⟩
  | zero => exact .inr ⟨id, _, rfl, Fraction.zero_reduced⟩
  | one => exact .inr ⟨id, _, rfl, Fraction.one_reduced⟩
  | copy a =>
    obtain ⟨v, hget, hv⟩ := hset a (by simp [Source.operands])
    exact .inr ⟨id, v, hget, hv⟩
  | evaluate text =>
    rw [compute]
    cases houtcome : ExactCalculator.evaluate text with
    | value v =>
      refine .inr ⟨?_, v, rfl, reduced_of_evaluate houtcome⟩
      rintro ⟨failure, hfailure⟩
      rw [houtcome] at hfailure
      cases hfailure
    | failure failure => exact .inl ⟨⟨failure, houtcome⟩, _, rfl⟩
  | combine operator a b =>
    obtain ⟨v, hget, hv⟩ := hset a (by simp [Source.operands])
    obtain ⟨w, hget', hw⟩ := hset b (by simp [Source.operands])
    rw [compute, hget, hget']
    exact .inr ⟨id, _, rfl, operator.apply_reduced hv hw⟩
  | addInt a n =>
    obtain ⟨v, hget, hv⟩ := hset a (by simp [Source.operands])
    rw [compute, hget]
    exact .inr ⟨id, _, rfl, hv.addInt n⟩
  | subInt a n =>
    obtain ⟨v, hget, hv⟩ := hset a (by simp [Source.operands])
    rw [compute, hget]
    exact .inr ⟨id, _, rfl, hv.subInt n⟩
  | neg a =>
    obtain ⟨v, hget, hv⟩ := hset a (by simp [Source.operands])
    rw [compute, hget]
    exact .inr ⟨id, _, rfl, hv.neg⟩
  | inv a =>
    obtain ⟨v, hget, hv⟩ := hset a (by simp [Source.operands])
    have hcompute : registers.compute (.inv a) = v.inv.mapError .fault := by
      rw [compute, hget]
      rfl
    rw [hcompute]
    rcases hv.inv_cases with ⟨rfl, hinv⟩ | ⟨hne, r, hinv, hr⟩
    · rw [hinv]
      exact .inl ⟨hget, _, rfl⟩
    · rw [hinv]
      exact .inr ⟨fun hzero => hne (Except.ok.inj (hget.symm.trans hzero)), r, rfl, hr⟩
  | quotient a b =>
    obtain ⟨v, hget, hv⟩ := hset a (by simp [Source.operands])
    obtain ⟨w, hget', hw⟩ := hset b (by simp [Source.operands])
    have hcompute : registers.compute (.quotient a b) = (v.div w).mapError .fault := by
      rw [compute, hget, hget']
      rfl
    rw [hcompute]
    rcases hv.div_cases hw with ⟨rfl, hdiv⟩ | ⟨hne, q, hdiv, hq⟩
    · rw [hdiv]
      exact .inl ⟨hget', _, rfl⟩
    · rw [hdiv]
      exact .inr ⟨fun hzero => hne (Except.ok.inj (hget'.symm.trans hzero)), q, rfl, hq⟩
  | divide a b =>
    obtain ⟨v, hget, hv⟩ := hset a (by simp [Source.operands])
    obtain ⟨w, hget', hw⟩ := hset b (by simp [Source.operands])
    have hcompute : registers.compute (.divide a b) = (v.divOrAbort w).mapError .aborted := by
      rw [compute, hget, hget']
      rfl
    rw [hcompute, Fraction.divOrAbort]
    rcases hv.div_cases hw with ⟨rfl, hdiv⟩ | ⟨hne, q, hdiv, hq⟩
    · rw [hdiv]
      exact .inl ⟨hget', _, rfl⟩
    · rw [hdiv]
      exact .inr ⟨fun hzero => hne (Except.ok.inj (hget'.symm.trans hzero)), q, rfl, hq⟩

/-- The instruction has no result. -/
def Fails (registers : Registers) (instruction : Instruction) : Prop :=
  registers.Unset instruction.operands ∨
    match instruction with
    | .assign _ source => registers.Undefined source
    | .update _ _ _ => False

theorem result_unset {instruction : Instruction} (h : registers.Unset instruction.operands) :
    ∃ trouble, registers.result instruction = .error trouble := by
  cases instruction with
  | assign target source => exact compute_unset h
  | update target operator operand =>
    have hcombine : registers.Unset (Source.combine operator target operand).operands := h
    exact compute_unset hcombine

/-- Every instruction makes a fraction in lowest terms, unless it fails. -/
theorem AllReduced.result_cases (h : registers.AllReduced) (instruction : Instruction) :
    (registers.Fails instruction ∧ ∃ trouble, registers.result instruction = .error trouble) ∨
      (¬ registers.Fails instruction ∧
        ∃ value, registers.result instruction = .ok value ∧ value.Reduced) := by
  by_cases hunset : registers.Unset instruction.operands
  · exact .inl ⟨.inl hunset, result_unset hunset⟩
  have hset : ∀ name ∈ instruction.operands,
      ∃ value, registers.get name = .ok value ∧ value.Reduced := by
    intro name hmem
    exact (h.get_cases name).resolve_left fun hget => hunset ⟨name, hmem, hget⟩
  simp only [Fails, hunset, false_or]
  cases instruction with
  | assign target source => exact compute_cases hset
  | update target operator operand =>
    obtain ⟨v, hget, hv⟩ := hset target (by simp [Instruction.operands])
    obtain ⟨w, hget', hw⟩ := hset operand (by simp [Instruction.operands])
    rw [result, hget, hget']
    exact .inr ⟨id, _, rfl, operator.apply_reduced hv hw⟩

/-! ## Instructions and programs -/

/-- An update of a register that is set, by one that is set, stores the result of the operation. -/
theorem perform_update {target operand : String} {a b : Fraction} (operator : Operator)
    (ha : registers.get target = .ok a) (hb : registers.get operand = .ok b) :
    registers.perform (.update target operator operand) =
      (.ok (operator.apply a b), registers.set target (operator.apply a b)) := by
  have hresult : registers.result (.update target operator operand) =
      .ok (operator.apply a b) := by
    rw [result, ha, hb]
    rfl
  rw [perform, hresult]
  rfl

theorem AllReduced.perform_cases (h : registers.AllReduced) (instruction : Instruction) :
    (registers.Fails instruction ∧
      ∃ trouble, registers.perform instruction = (.error trouble, registers)) ∨
    (¬ registers.Fails instruction ∧ ∃ value, value.Reduced ∧
      registers.perform instruction = (.ok value, registers.set instruction.target value)) := by
  rcases h.result_cases instruction with ⟨hfails, trouble, hresult⟩ | ⟨hok, value, hresult, hvalue⟩
  · exact .inl ⟨hfails, trouble, by rw [perform, hresult]⟩
  · exact .inr ⟨hok, value, hvalue, by rw [perform, hresult]⟩

theorem AllReduced.perform (h : registers.AllReduced) (instruction : Instruction) :
    (registers.perform instruction).2.AllReduced := by
  rcases h.perform_cases instruction with ⟨-, trouble, hperform⟩ | ⟨-, value, hvalue, hperform⟩
  · rw [hperform]
    exact h
  · rw [hperform]
    exact h.set hvalue

theorem AllReduced.performAll (h : registers.AllReduced) (program : List Instruction) :
    (registers.performAll program).AllReduced := by
  induction program generalizing registers with
  | nil => exact h
  | cons instruction rest ih => exact ih (h.perform instruction)

/-- After any program every stored fraction is in lowest terms, and so is what the next instruction
makes; zero is stored as `0/1` only. An instruction fails exactly when an operand was never set, a
denominator or a divisor is zero or a text has no value, and then it changes nothing. -/
theorem perform_after_program (program : List Instruction) (instruction : Instruction) :
    let registers := Registers.performAll [] program
    (∀ entry ∈ registers, entry.2.Reduced ∧ (entry.2.num = 0 → entry.2 = .zero)) ∧
    ((registers.Fails instruction ∧
      ∃ trouble, registers.perform instruction = (.error trouble, registers)) ∨
    (¬ registers.Fails instruction ∧ ∃ value after,
      registers.perform instruction = (.ok value, after) ∧
      value.Reduced ∧ (value.num = 0 → value = .zero) ∧
      ∀ name, after.get name =
        if name = instruction.target then .ok value else registers.get name)) := by
  intro registers
  have hempty : AllReduced [] := by simp [AllReduced]
  have hreduced : registers.AllReduced := hempty.performAll program
  refine ⟨fun entry hmem => ⟨hreduced entry hmem, (hreduced entry hmem).eq_zero⟩, ?_⟩
  rcases hreduced.perform_cases instruction with hfails | ⟨hok, value, hvalue, hperform⟩
  · exact .inl hfails
  · refine .inr ⟨hok, value, _, hperform, hvalue, hvalue.eq_zero, ?_⟩
    intro name
    split
    · next heq => rw [heq, get_set_self]
    · next hne => rw [get_set_of_ne hne]

end Registers

end ExactCalculator
