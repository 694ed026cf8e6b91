import Tase.Translator.Emits
import Tase.Translator.Parse
import Tase.Translator.Writing

/-! The register file behind `emit_store` and `emit_fetch`: every name is a view on one of the sixteen
registers. -/

namespace Tase

open Cpp Emit

/-! The names, as the tables make them. -/

def registerNames : List (List Char) := (gprs64 ++ gprs32 ++ gprs16 ++ gprs8L ++ gprs8H).map Prod.fst

theorem regName_gprs64 : ∀ e ∈ gprs64, regName e.1 = .q (.gpr e.2) := by decide

theorem regName_gprs32 : ∀ e ∈ gprs32, regName e.1 = .d e.2 := by decide

theorem regName_gprs16 : ∀ e ∈ gprs16, regName e.1 = .w e.2 := by decide

theorem regName_gprs8L : ∀ e ∈ gprs8L, regName e.1 = .l e.2 := by decide

theorem regName_gprs8H : ∀ e ∈ gprs8H, regName e.1 = .h e.2 := by decide

theorem regName_base {name : List Char} (listed : name ∈ registerNames) :
    ∃ g, baseReg (regName name) = some (.gpr g) := by
  obtain ⟨e, member, rfl⟩ := List.mem_map.mp listed
  refine ⟨e.2, ?_⟩
  simp only [List.mem_append] at member
  rcases member with (((member | member) | member) | member) | member
  · rw [regName_gprs64 e member, baseReg]
  · rw [regName_gprs32 e member, baseReg]
  · rw [regName_gprs16 e member, baseReg]
  · rw [regName_gprs8L e member, baseReg]
  · rw [regName_gprs8H e member, baseReg]

namespace RegName

def Overlaps (r s : RegName) : Prop := baseReg r = baseReg s ∧ ∃ k, r.holds k = true ∧ s.Names k

def Within (r s : RegName) : Prop := baseReg r = baseReg s ∧ ∀ k, r.Names k → s.Names k

variable {r s : RegName} {whole : Reg} {m : Mach}

theorem not_holds {k : Nat} (known : (baseReg r).isSome) (outside : r.holds k = false) :
    ¬ r.Names k ∧ r.keeps = true := by
  cases r with
  | other name => cases known
  | q reg | d g => cases outside
  | w g | l g | h g => simpa [holds, Names, low, keeps, Tase.regSize, Size.bits] using outside

theorem field_put_bit (known : (baseReg r).isSome) (old : BitVec 64)
    (v : BitVec (Tase.regSize r).bits) {k : Nat} (inside : k < (Tase.regSize s).bits) :
    (s.field (Tase.regSize s) (r.put old v)).getLsbD k =
      if r.Names (s.low + k) then v.getLsbD (s.low + k - r.low)
      else r.keeps && (s.field (Tase.regSize s) old).getLsbD k := by
  have bound := s.low_bound
  rw [field_bit _ _ _ inside, field_bit _ _ _ inside, put_bit known _ _ (by omega)]

theorem field_put_apart (known : (baseReg r).isSome) (old : BitVec 64)
    (v : BitVec (Tase.regSize r).bits) (apart : ∀ k, s.Names k → r.holds k = false) :
    s.field (Tase.regSize s) (r.put old v) = s.field (Tase.regSize s) old := by
  apply BitVec.eq_of_getLsbD_eq
  intro k inside
  obtain ⟨unnamed, kept⟩ := not_holds known (apart (s.low + k) ⟨by omega, by omega⟩)
  rw [field_put_bit known old v inside, if_neg unnamed, kept, Bool.true_and]

end RegName

def Yields (ub : Undef) (r : RegName) (st : CState) (x : BitVec (regSize r).bits) : Prop :=
  ∀ stem signed, Leads ub ((Operand.reg r).emitFetch stem (regSize r) signed) st fun v st' =>
    st'.vars v = ⟨⟨(regSize r).bits, signed⟩, x⟩

def Stored (ub : Undef) (r : RegName) (t : Temp) (st st' : CState) : Prop :=
  Leads ub ((Operand.reg r).emitStore (.var t) (regSize r)) st fun _ st'' => st'' = st'

section

variable {ub : Undef} {r s : RegName} {whole : Reg} {st st' : CState} {t : Temp}

theorem yields_iff (base : baseReg r = some whole) (x : BitVec (regSize r).bits) :
    Yields ub r st x ↔ x = r.field (regSize r) (st.machine.regs whole) := by
  have fetches (stem : String) (signed : Bool) (n : Nat) :
      Runs ub ((Operand.reg r).emitFetch stem (regSize r) signed) n st fun v _ st' =>
        st'.vars v = ⟨⟨(regSize r).bits, signed⟩, r.field (regSize r) (st.machine.regs whole)⟩ := by
    refine Runs.emitFetch ?_
    rw [State.bind_vars_self, Operand.fetch, Operand.value_reg base rfl]
  have storable : (Operand.reg r).Storable (regSize r) := ⟨rfl, by simp [base]⟩
  constructor
  · intro yields
    obtain ⟨v, st', here, there⟩ := (yields "" false).and_runs (fetches "" false)
    simpa using here.symm.trans there
  · rintro rfl stem signed
    exact (Emits.emitFetch storable.fetchable).leads (fetches stem signed)

theorem stored_iff (base : baseReg r = some whole) {v : BitVec (regSize r).bits}
    (held : st.vars t = ⟨(regSize r).uint, v⟩) :
    Stored ub r t st st' ↔
      st' = st.withMachine (st.machine.setReg whole (r.put (st.machine.regs whole) v)) := by
  have stores (n : Nat) :
      Runs ub ((Operand.reg r).emitStore (.var t) (regSize r)) n st fun _ _ st'' =>
        st'' = st.withMachine (st.machine.setReg whole (r.put (st.machine.regs whole) v)) := by
    refine Runs.emitStoreVar ?_
    rw [held, Operand.write_put base rfl]
  have storable : (Operand.reg r).Storable (regSize r) := ⟨rfl, by simp [base]⟩
  constructor
  · intro stored
    obtain ⟨_, st'', rfl, same⟩ := stored.and_runs stores
    exact same
  · rintro rfl
    exact (Emits.emitStore storable).leads stores

end

/-- What holds behind a store of `v` to `r`, as seen through `s`. -/
structure StoreLaws (ub : Undef) (r s : RegName) (t : Temp) (v : BitVec (regSize r).bits)
    (st st' : CState) : Prop where
  stored : Stored ub r t st st'
  same : Yields ub r st' v
  /-- `s` keeps its value when it is apart from `r`, and has the part `r` replaced when it contains it. -/
  seen : ∃ x, Yields ub s st x ∧ (¬ r.Overlaps s → Yields ub s st' x) ∧
    (r.Within s → ∃ y, Yields ub s st' y ∧ ∀ k < (regSize s).bits, y.getLsbD k =
      if r.Names (s.low + k) then v.getLsbD (s.low + k - r.low) else r.keeps && x.getLsbD k)
  last : ∀ u w, st.vars u = ⟨(regSize r).uint, w⟩ →
    ∀ st'', Stored ub r u st' st'' ↔ Stored ub r u st st''

/-- The register file is a family of lenses. -/
theorem register_lens {ub : Undef} {r s : List Char} (first : r ∈ registerNames)
    (second : s ∈ registerNames) {st : CState} {t : Temp} {v : BitVec (regSize (regName r)).bits}
    (held : st.vars t = ⟨(regSize (regName r)).uint, v⟩) :
    ∃ st', StoreLaws ub (regName r) (regName s) t v st st' := by
  obtain ⟨g, base⟩ := regName_base first
  obtain ⟨h, base'⟩ := regName_base second
  generalize regName r = r at *
  generalize regName s = s at *
  have known : (baseReg r).isSome := by simp [base]
  refine ⟨_, (stored_iff base held).mpr rfl, (yields_iff base v).mpr ?_, ?_, fun u w held' st'' => ?_⟩
  · rw [State.withMachine_machine, Machine.setReg_regs_self, RegName.field_put known]
  · refine ⟨_, (yields_iff base' _).mpr rfl, fun apart => ?_, fun within => ?_⟩
    · rw [yields_iff base', State.withMachine_machine]
      by_cases one : g = h
      · subst one
        rw [Machine.setReg_regs_self, RegName.field_put_apart known]
        intro k named
        by_contra held
        exact apart ⟨base.trans base'.symm, k, by simpa using held, named⟩
      · have other : Reg.gpr h ≠ .gpr g := by simp [Ne.symm one]
        rw [Machine.setReg_regs, if_neg other]
    · obtain rfl : g = h := by simpa [base, base'] using within.1
      refine ⟨_, (yields_iff base' _).mpr rfl, fun k inside => ?_⟩
      rw [State.withMachine_machine, Machine.setReg_regs_self, RegName.field_put_bit known _ _ inside]
  · rw [stored_iff base held', stored_iff base (by exact held')]
    simp only [State.withMachine_machine, Machine.setReg_setReg, Machine.setReg_regs_self,
      RegName.put_put known]
    rfl

def sevenHeld : CState := ⟨onesInRegisters, fun _ => ⟨.uint 8, 7⟩⟩

theorem register_lens_highByte :
    ∃ st', StoreLaws default (.h .rax) (.q (.gpr .rax)) ⟨"v", 0⟩ 7 sevenHeld st' ∧
      Yields default (.q (.gpr .rax)) st' 0x701 := by
  obtain ⟨st', laws⟩ := @register_lens default "ah".toList "rax".toList (by decide) (by decide)
    sevenHeld ⟨"v", 0⟩ 7 rfl
  have held : sevenHeld.vars ⟨"v", 0⟩ = ⟨(regSize (.h .rax)).uint, 7⟩ := rfl
  obtain rfl := (stored_iff (r := .h .rax) rfl held).mp laws.stored
  exact ⟨_, laws, (yields_iff rfl _).mpr (by decide)⟩

end Tase
