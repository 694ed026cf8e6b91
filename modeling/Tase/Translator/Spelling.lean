import Tase.Translator.Mnemonic

/-! The mnemonics that are accepted, as a grammar, and what they are read as. -/

namespace Tase

def Size.letter : Size → Char
  | .b => 'b'
  | .w => 'w'
  | .l => 'l'
  | .q => 'q'

def TestBit.letter : TestBit → Char
  | .c => 'c'
  | .r => 'r'
  | .s => 's'

def FlagBit.letter : FlagBit → Char
  | .c => 'c'
  | .d => 'd'
  | .i => 'i'

/-- A condition. The names of the two parities that say which one it is are read only where something
follows. -/
inductive CondText
  | named (neg : Bool) (name : CondName)
  | parity (neg : Bool)
  | parityName (odd : Bool)
deriving DecidableEq

namespace CondText

def text : CondText → List Char
  | .named neg name => name.suffix neg
  | .parity neg => if neg then ['n', 'p'] else ['p']
  | .parityName odd => if odd then ['p', 'o'] else ['p', 'e']

def fields : CondText → CondFields
  | .named neg name => name.fields neg
  | .parity neg => ⟨some .p, neg, false⟩
  | .parityName odd => ⟨some .p, odd, false⟩

def ends : CondText → Bool
  | .named _ _ | .parity _ => true
  | .parityName _ => false

end CondText

namespace Stem

def bare : List Stem := [Stem.cmpxchg8b, .cmpxchg16b, .hlt, .cmc] ++ opsConv

def sized : List Stem :=
  opsXchg.drop 2 ++ opsMath ++ [Stem.bsf, .bsr, .test, .call, .ret, .jmp] ++ opsStr ++ opsFlag.take 2 ++
    [Stem.bswap, .enter, .leave, .lea, .movabs, .mov, .nop, .pop, .push]

/-- The operations that are renamed, ignored or rejected; of `movs` it depends on the suffix. -/
def special : List Stem := opsTran ++ opsIgnore ++ [Stem.jecxz, .jcxz, .smov]

end Stem

inductive Spelling
  /-- Vector and floating-point instructions, with anything behind. -/
  | dropped (stem : Stem) (rest : List Char) (listed : stem ∈ Stem.opsIgnore)
  | transaction (stem : Stem) (rest : List Char) (listed : stem ∈ Stem.opsTran)
  | bare (stem : Stem) (listed : stem ∈ Stem.bare)
  | sized (stem : Stem) (size : Size) (listed : stem ∈ Stem.sized)
  /-- objdump leaves the size away. -/
  | implied (stem : Stem) (listed : stem ∈ [Stem.nop, .jmp, .bswap])
  | extending (signed : Bool) (size1 size2 : Size)
  | shift (stem : Stem) (left noflag : Bool) (size : Size) (listed : stem ∈ [Stem.rc, .ro, .sa, .sh])
  | double (left noflag : Bool) (size : Size)
  | bitTest (change : Option TestBit) (size : Size)
  | flag (sets : Bool) (bit : FlagBit)
  | condition (jumps : Bool) (cond : CondText) (ends : cond.ends = true)
  | move (cond : CondText) (size : Size)
  | loop (cond : CondText) (size : Size)
  | loopAlways

namespace Spelling

def direction (left : Bool) : Char := if left then 'l' else 'r'

def shiftEnd (noflag : Bool) (size : Size) : List Char := if noflag then ['x', size.letter] else [size.letter]

def stem : Spelling → Stem
  | .dropped stem _ _ | .transaction stem _ _ | .bare stem _ | .sized stem _ _ | .implied stem _
  | .shift stem _ _ _ _ => stem
  | .extending signed _ _ => if signed then .movs else .movz
  | .double _ _ _ => .sh
  | .bitTest _ _ => .bt
  | .flag sets _ => if sets then .st else .cl
  | .condition jumps _ _ => if jumps then .j else .set
  | .move _ _ => .cmov
  | .loop _ _ | .loopAlways => .loop

def suffix : Spelling → List Char
  | .dropped _ rest _ | .transaction _ rest _ => rest
  | .bare _ _ | .implied _ _ => []
  | .sized _ size _ => [size.letter]
  | .extending _ size1 size2 => [size1.letter, size2.letter]
  | .shift _ left noflag size _ => direction left :: shiftEnd noflag size
  | .double left noflag size => direction left :: 'd' :: shiftEnd noflag size
  | .bitTest change size => (change.map TestBit.letter).toList ++ [size.letter]
  | .flag _ bit => [bit.letter]
  | .condition _ cond _ => cond.text
  | .move cond size | .loop cond size => cond.text ++ [size.letter]
  | .loopAlways => ['q']

def text (s : Spelling) : List Char := s.stem.text ++ s.suffix

def reading : Spelling → Reading
  | .dropped stem _ _ => { op := stem, ignored := true }
  | .transaction _ _ _ => { op := .nop, size1 := some .q }
  | .bare stem _ => { op := stem }
  | .sized stem size _ => { op := if stem = .smov then .movs else stem, size1 := some size }
  | .implied stem _ => { op := stem, size1 := some (if stem = .bswap then .l else .q) }
  | .extending signed size1 size2 =>
      { op := if signed then .movsx else .movz, size1 := some size1, size2 := some size2 }
  | .shift stem left noflag size _ => { op := stem, cLeft := left, cNoflag := noflag, size1 := some size }
  | .double left noflag size => { op := .shd, cLeft := left, cNoflag := noflag, size1 := some size }
  | .bitTest change size => { op := .bt, testBit := change, size1 := some size }
  | .flag sets bit => { op := if sets then .st else .cl, flagBit := some bit }
  | .condition jumps cond _ => { op := if jumps then .j else .set, cond := cond.fields }
  | .move cond size => { op := .cmov, cond := cond.fields, size1 := some size }
  | .loop cond size => { op := .loop, cond := cond.fields, size1 := some size }
  | .loopAlways => { op := .loop, size1 := some .q }

end Spelling

/-! Each part of the suffix, with what it leaves. -/

section

variable {r r' : Reading} {suffix rest : List Char}

theorem bind_ok_iff {α β : Type} {x : Except Error α} {next : α → Except Error β} {b : β} :
    x >>= next = .ok b ↔ ∃ a, x = .ok a ∧ next a = .ok b := by
  cases x with
  | error e =>
      constructor
      · intro failed
        cases failed
      · rintro ⟨a, failed, _⟩
        cases failed
  | ok a =>
      constructor
      · intro found
        exact ⟨a, rfl, found⟩
      · rintro ⟨_, ⟨⟩, found⟩
        exact found

theorem needSuffixSize_iff {c : Char} {size : Size} : needSuffixSize c = .ok size ↔ c = size.letter := by
  constructor
  · intro found
    unfold needSuffixSize suffixSize at found
    split at found
    · rename_i same
      cases found
      split at same <;> cases same <;> rfl
    · cases found
  · rintro rfl
    cases size <;> rfl

theorem suffixTest_iff {c : Char} {bit : TestBit} : suffixTest c = some bit ↔ c = bit.letter := by
  constructor
  · intro found
    unfold suffixTest at found
    split at found <;> cases found <;> rfl
  · rintro rfl
    cases bit <;> rfl

theorem suffixFlag_iff {c : Char} {bit : FlagBit} : suffixFlag c = some bit ↔ c = bit.letter := by
  constructor
  · intro found
    unfold suffixFlag at found
    split at found <;> cases found <;> rfl
  · rintro rfl
    cases bit <;> rfl

theorem finish_iff {a : Reading} : (if suffix = [] then pure a else
    .error (.assertion ("Unable to use all of the suffix: " ++ String.ofList suffix)) : Except Error Reading) = .ok r' ↔
    suffix = [] ∧ r' = a := by
  by_cases all : suffix = []
  · simp only [all, if_true, true_and]
    exact ⟨fun same => by cases same; rfl, fun same => by rw [same]; rfl⟩
  · simp [all]

theorem parseEnd_bare (bare : r.op ∉ Stem.opsSized) : parseEnd r suffix = .ok r' ↔ suffix = [] ∧ r' = r := by
  simp only [parseEnd, bare, if_false]
  exact finish_iff

theorem parseEnd_sized (sized : r.op ∈ Stem.opsSized) (single : ¬(r.op = .movsx ∨ r.op = .movz)) :
    parseEnd r suffix = .ok r' ↔
      (∃ size : Size, suffix = [size.letter] ∧ r' = { r with size1 := some size }) ∨
      (suffix = [] ∧ r.op ∈ [Stem.nop, .jmp, .bswap] ∧
        r' = { r with size1 := some (if r.op = .bswap then .l else .q) }) := by
  simp only [parseEnd, sized, if_true]
  rw [bind_ok_iff]
  cases suffix with
  | nil =>
      have short : parseSize r [] = if r.op ∈ [Stem.nop, .jmp, .bswap] then
          .ok ({ r with size1 := some (if r.op = .bswap then .l else .q) }, [])
          else .error (.assertion "No operand size suffix") := by
        unfold parseSize
        by_cases swap : r.op = .bswap
        · simp [swap]
        · simp [swap]
      by_cases implied : r.op ∈ [Stem.nop, .jmp, .bswap]
      · rw [short, if_pos implied]
        constructor
        · rintro ⟨a, ⟨⟩, ended⟩
          exact .inr ⟨rfl, implied, (finish_iff.mp ended).2⟩
        · rintro (⟨size, none, _⟩ | ⟨_, _, rfl⟩)
          · cases none
          · exact ⟨_, rfl, finish_iff.mpr ⟨rfl, rfl⟩⟩
      · rw [short, if_neg implied]
        constructor
        · rintro ⟨a, failed, _⟩
          cases failed
        · rintro (⟨size, none, _⟩ | ⟨_, listed, _⟩)
          · cases none
          · exact absurd listed implied
  | cons c suffix =>
      simp only [parseSize, reduceCtorEq, and_false, if_false, single]
      constructor
      · rintro ⟨⟨a, left⟩, found, ended⟩
        obtain ⟨size, letter, same⟩ := bind_ok_iff.mp found
        obtain ⟨rfl, rfl⟩ := finish_iff.mp ended
        cases same
        exact .inl ⟨size, by rw [needSuffixSize_iff.mp letter], rfl⟩
      · rintro (⟨size, same, rfl⟩ | ⟨none, _⟩)
        · obtain ⟨rfl, rfl⟩ := List.cons.inj same
          exact ⟨_, bind_ok_iff.mpr ⟨size, needSuffixSize_iff.mpr rfl, rfl⟩, finish_iff.mpr ⟨rfl, rfl⟩⟩
        · cases none

theorem parseEnd_single (r : Reading) (sized : r.op ∈ [Stem.rc, .ro, .sa, .sh, .shd, .bt, .cmov, .loop]) :
    parseEnd r suffix = .ok r' ↔ ∃ size : Size, suffix = [size.letter] ∧ r' = { r with size1 := some size } := by
  have known : ∀ op ∈ [Stem.rc, .ro, .sa, .sh, .shd, .bt, .cmov, .loop], op ∈ Stem.opsSized ∧
      ¬(op = .movsx ∨ op = .movz) ∧ op ∉ [Stem.nop, .jmp, .bswap] := by decide
  obtain ⟨listed, single, implied⟩ := known r.op sized
  rw [parseEnd_sized listed single]
  simp [implied]

theorem parseEnd_extending (double : r.op = .movsx ∨ r.op = .movz) :
    parseEnd r suffix = .ok r' ↔ ∃ size1 size2 : Size, suffix = [size1.letter, size2.letter] ∧
      r' = { r with size1 := some size1, size2 := some size2 } := by
  have sized : r.op ∈ Stem.opsSized := by rcases double with op | op <;> rw [op] <;> decide
  have others : r.op ≠ .nop ∧ r.op ≠ .jmp ∧ r.op ≠ .bswap := by rcases double with op | op <;> simp [op]
  simp only [parseEnd, sized, if_true]
  rw [bind_ok_iff]
  constructor
  · rintro ⟨⟨a, left⟩, found, ended⟩
    obtain ⟨rfl, rfl⟩ := finish_iff.mp ended
    simp only [parseSize, others, false_or, false_and, if_false] at found
    cases suffix with
    | nil => cases found
    | cons c suffix =>
        simp only [double, if_true] at found
        obtain ⟨size1, first, found⟩ := bind_ok_iff.mp found
        cases suffix with
        | nil => cases found
        | cons d suffix =>
            obtain ⟨size2, second, same⟩ := bind_ok_iff.mp found
            cases same
            exact ⟨size1, size2, by rw [needSuffixSize_iff.mp first, needSuffixSize_iff.mp second], rfl⟩
  · rintro ⟨size1, size2, rfl, rfl⟩
    refine ⟨({ r with size1 := some size1, size2 := some size2 }, []), ?_, finish_iff.mpr ⟨rfl, rfl⟩⟩
    simp only [parseSize, others, false_or, false_and, if_false, double, if_true]
    exact bind_ok_iff.mpr ⟨size1, needSuffixSize_iff.mpr rfl,
      bind_ok_iff.mpr ⟨size2, needSuffixSize_iff.mpr rfl, rfl⟩⟩

theorem parseFlag_iff : parseFlag r suffix = .ok (r', rest) ↔
    ∃ bit : FlagBit, suffix = bit.letter :: rest ∧ r' = { r with flagBit := some bit } := by
  cases suffix with
  | nil =>
      constructor
      · intro failed
        cases failed
      · rintro ⟨bit, none, _⟩
        cases none
  | cons c suffix =>
      simp only [parseFlag]
      constructor
      · intro found
        split at found
        · rename_i bit same
          cases found
          exact ⟨bit, by rw [suffixFlag_iff.mp same], rfl⟩
        · cases found
      · rintro ⟨bit, same, rfl⟩
        obtain ⟨rfl, rfl⟩ := List.cons.inj same
        simp only [suffixFlag_iff.mpr rfl]

theorem parseBt_ended (op : r.op = .bt) (plain : r.testBit = none) :
    parseEnd (parseBt r suffix).1 (parseBt r suffix).2 = .ok r' ↔
      ∃ (change : Option TestBit) (size : Size),
        suffix = (change.map TestBit.letter).toList ++ [size.letter] ∧
        r' = { r with testBit := change, size1 := some size } := by
  have listed : r.op ∈ [Stem.rc, .ro, .sa, .sh, .shd, .bt, .cmov, .loop] := by simp [op]
  constructor
  · intro found
    cases suffix with
    | nil =>
        obtain ⟨size, none, _⟩ := (parseEnd_single r listed).mp found
        cases none
    | cons c suffix =>
        simp only [parseBt] at found
        split at found
        · rename_i bit letter
          obtain ⟨size, rfl, rfl⟩ := (parseEnd_single { r with testBit := some bit } listed).mp found
          exact ⟨some bit, size, by simp [suffixTest_iff.mp letter], rfl⟩
        · obtain ⟨size, same, rfl⟩ := (parseEnd_single r listed).mp found
          exact ⟨none, size, same, by rw [← plain]⟩
  · rintro ⟨change, size, rfl, rfl⟩
    cases change with
    | none =>
        have letter : suffixTest size.letter = none := by cases size <;> rfl
        have read : parseBt r [size.letter] = (r, [size.letter]) := by simp only [parseBt, letter]
        simp only [Option.map_none, Option.toList_none, List.nil_append, read]
        exact (parseEnd_single r listed).mpr ⟨size, rfl, by rw [← plain]⟩
    | some bit =>
        have read : parseBt r [bit.letter, size.letter] = ({ r with testBit := some bit }, [size.letter]) := by
          simp only [parseBt, suffixTest_iff.mpr rfl]
        simp only [Option.map_some, Option.toList_some, List.singleton_append, read]
        exact (parseEnd_single { r with testBit := some bit } listed).mpr ⟨size, rfl, rfl⟩

theorem shiftEnd_ended (shift : r.op ∈ Stem.opsShift) :
    (let noflag := decide (1 < suffix.length ∧ suffix.head? = some 'x')
     parseEnd { r with cNoflag := noflag } (if noflag then suffix.tail else suffix) = .ok r') ↔
      ∃ (noflag : Bool) (size : Size), suffix = Spelling.shiftEnd noflag size ∧
        r' = { r with cNoflag := noflag, size1 := some size } := by
  have listed : r.op ∈ [Stem.rc, .ro, .sa, .sh, .shd, .bt, .cmov, .loop] := by
    have known : ∀ op ∈ Stem.opsShift, op ∈ [Stem.rc, .ro, .sa, .sh, .shd, .bt, .cmov, .loop] := by decide
    exact known r.op shift
  constructor
  · intro found
    cases decided : decide (1 < suffix.length ∧ suffix.head? = some 'x') with
    | true =>
        simp only [decided, if_true] at found
        obtain ⟨size, left, rfl⟩ := (parseEnd_single { r with cNoflag := true } listed).mp found
        refine ⟨true, size, ?_, rfl⟩
        rw [List.eq_cons_of_mem_head? (of_decide_eq_true decided).2, left]
        rfl
    | false =>
        simp only [decided, Bool.false_eq_true, if_false] at found
        obtain ⟨size, rfl, rfl⟩ := (parseEnd_single { r with cNoflag := false } listed).mp found
        exact ⟨false, size, rfl, rfl⟩
  · rintro ⟨noflag, size, rfl, rfl⟩
    cases noflag with
    | true => exact (parseEnd_single { r with cNoflag := true } listed).mpr ⟨size, rfl, rfl⟩
    | false => exact (parseEnd_single { r with cNoflag := false } listed).mpr ⟨size, rfl, rfl⟩

theorem parseShift_ended (shift : r.op ∈ [Stem.rc, .ro, .sa, .sh]) :
    parseShift r suffix >>= (fun p => parseEnd p.1 p.2) = .ok r' ↔
      ∃ (left noflag : Bool) (size : Size),
        (suffix = Spelling.direction left :: Spelling.shiftEnd noflag size ∧
          r' = { r with cLeft := left, cNoflag := noflag, size1 := some size }) ∨
        (r.op = .sh ∧ suffix = Spelling.direction left :: 'd' :: Spelling.shiftEnd noflag size ∧
          r' = { r with op := .shd, cLeft := left, cNoflag := noflag, size1 := some size }) := by
  have listed : r.op ∈ Stem.opsShift := by
    have known : ∀ op ∈ [Stem.rc, .ro, .sa, .sh], op ∈ Stem.opsShift := by decide
    exact known r.op shift
  -- Behind the direction it is decided whether the shift is a double one.
  have plain (left : Bool) {behind : List Char} (other : ¬(r.op = .sh ∧ behind.head? = some 'd')) :
      parseShift r (Spelling.direction left :: behind) >>= (fun p => parseEnd p.1 p.2) = .ok r' ↔
        ∃ (noflag : Bool) (size : Size), behind = Spelling.shiftEnd noflag size ∧
          r' = { r with cLeft := left, cNoflag := noflag, size1 := some size } := by
    rw [← @shiftEnd_ended { r with cLeft := left } r' behind listed]
    cases left <;> simp [parseShift, Spelling.direction, other, bind, Except.bind]
  have double (left : Bool) {behind : List Char} (op : r.op = .sh) :
      parseShift r (Spelling.direction left :: 'd' :: behind) >>= (fun p => parseEnd p.1 p.2) = .ok r' ↔
        ∃ (noflag : Bool) (size : Size), behind = Spelling.shiftEnd noflag size ∧
          r' = { r with op := .shd, cLeft := left, cNoflag := noflag, size1 := some size } := by
    rw [← @shiftEnd_ended { r with op := .shd, cLeft := left } r' behind
      (show Stem.shd ∈ Stem.opsShift by decide)]
    cases left <;> simp [parseShift, Spelling.direction, op, bind, Except.bind]
  constructor
  · intro found
    cases suffix with
    | nil => cases found
    | cons c behind =>
        obtain ⟨left, rfl⟩ : ∃ left, c = Spelling.direction left := by
          by_cases known : c = 'l' ∨ c = 'r'
          · rcases known with rfl | rfl
            · exact ⟨true, rfl⟩
            · exact ⟨false, rfl⟩
          · simp [parseShift, known, bind, Except.bind] at found
        by_cases again : r.op = .sh ∧ behind.head? = some 'd'
        · obtain ⟨op, head⟩ := again
          obtain ⟨behind, rfl⟩ : ∃ rest, behind = 'd' :: rest := ⟨_, List.eq_cons_of_mem_head? head⟩
          obtain ⟨noflag, size, rfl, rfl⟩ := (double left op).mp found
          exact ⟨left, noflag, size, .inr ⟨op, rfl, rfl⟩⟩
        · obtain ⟨noflag, size, rfl, rfl⟩ := (plain left again).mp found
          exact ⟨left, noflag, size, .inl ⟨rfl, rfl⟩⟩
  · rintro ⟨left, noflag, size, ⟨rfl, rfl⟩ | ⟨op, rfl, rfl⟩⟩
    · have other : (Spelling.shiftEnd noflag size).head? ≠ some 'd' := by
        cases noflag <;> cases size <;> simp [Spelling.shiftEnd, Size.letter]
      exact (plain left fun both => other both.2).mpr ⟨noflag, size, rfl, rfl⟩
    · exact (double left op).mpr ⟨noflag, size, rfl, rfl⟩

end

/-! Conditions. -/

section

variable {op : Op} {suffix rest : List Char} {fields : CondFields}

theorem parsePrimary_inv {neg : Bool} (parsed : parsePrimary neg suffix = .ok (fields, rest)) :
    (∃ name : CondName, suffix = name.text ++ rest ∧ fields = name.fields neg) ∨
      suffix = 'p' :: rest ∧ fields = ⟨some .p, neg, false⟩ := by
  cases suffix with
  | nil => cases parsed
  | cons letter behind =>
      simp only [parsePrimary] at parsed
      split at parsed
      · rename_i known
        split at parsed
        · rename_i both
          obtain ⟨listed, head⟩ := both
          obtain ⟨behind, rfl⟩ : ∃ more, behind = 'e' :: more := ⟨_, List.eq_cons_of_mem_head? head⟩
          cases parsed
          left
          simp only [suffixCondNE, List.mem_cons, List.not_mem_nil, or_false] at listed
          rcases listed with rfl | rfl | rfl | rfl
          · exact ⟨.ae, rfl, rfl⟩
          · exact ⟨.be, rfl, rfl⟩
          · exact ⟨.ge, rfl, rfl⟩
          · exact ⟨.le, rfl, rfl⟩
        · cases parsed
          simp only [suffixCondN, suffixCondNE, List.cons_append, List.nil_append, List.mem_cons, List.not_mem_nil,
            or_false] at known
          rcases known with rfl | rfl | rfl | rfl | rfl | rfl | rfl | rfl | rfl | rfl
          · exact .inl ⟨.c, rfl, rfl⟩
          · exact .inl ⟨.e, rfl, rfl⟩
          · exact .inl ⟨.o, rfl, rfl⟩
          · exact .inr ⟨rfl, rfl⟩
          · exact .inl ⟨.s, rfl, rfl⟩
          · exact .inl ⟨.z, rfl, rfl⟩
          · exact .inl ⟨.a, rfl, rfl⟩
          · exact .inl ⟨.b, rfl, rfl⟩
          · exact .inl ⟨.g, rfl, rfl⟩
          · exact .inl ⟨.l, rfl, rfl⟩
      · cases parsed

theorem parseCond_inv (parsed : parseCond op suffix = .ok (fields, rest)) :
    (∃ cond : CondText, suffix = cond.text ++ rest ∧ fields = cond.fields ∧ (rest = [] → cond.ends = true)) ∨
      op = .loop ∧ suffix.head? = some 'q' ∧ fields = {} ∧ rest = suffix := by
  -- What `_parse_cond` accepts is a condition, or the `q` of a loop without one.
  unfold parseCond at parsed
  split at parsed
  · cases parsed
  · split at parsed
    · rename_i loops
      cases parsed
      exact .inr ⟨loops.2, loops.1, rfl, rfl⟩
    · left
      split at parsed
      · rename_i parity
        cases parsed
        have more : suffix.drop 2 ≠ [] := by
          intro none
          have length := List.drop_eq_nil_iff.mp none
          omega
        have whole := (List.take_append_drop 2 suffix).symm
        have names : suffix.take 2 = ['p', 'e'] ∨ suffix.take 2 = ['p', 'o'] := by
          simpa [suffixCondP] using parity.2
        rcases names with even | odd
        · refine ⟨.parityName false, ?_, ?_, fun none => absurd none more⟩
          · rw [even] at whole
            exact whole
          · simp [even, CondText.fields]
        · refine ⟨.parityName true, ?_, ?_, fun none => absurd none more⟩
          · rw [odd] at whole
            exact whole
          · simp [odd, CondText.fields]
      · split at parsed
        · rename_i negated
          obtain ⟨behind, rfl⟩ : ∃ more, suffix = 'n' :: more := ⟨_, List.eq_cons_of_mem_head? negated⟩
          rcases parsePrimary_inv parsed with ⟨name, same, rfl⟩ | ⟨same, rfl⟩
          · exact ⟨.named true name, congrArg ('n' :: ·) same, rfl, fun _ => rfl⟩
          · exact ⟨.parity true, congrArg ('n' :: ·) same, rfl, fun _ => rfl⟩
        · rcases parsePrimary_inv parsed with ⟨name, same, rfl⟩ | ⟨same, rfl⟩
          · exact ⟨.named false name, same, rfl, fun _ => rfl⟩
          · exact ⟨.parity false, same, rfl, fun _ => rfl⟩

theorem parseCond_text (op : Op) (cond : CondText) (ends : cond.ends = true) :
    parseCond op cond.text = .ok (cond.fields, []) := by
  cases cond with
  | named neg name => cases neg <;> cases name <;> rfl
  | parity neg => cases neg <;> rfl
  | parityName odd => cases ends

theorem parseCond_sized (op : Op) (cond : CondText) (size : Size) :
    parseCond op (cond.text ++ [size.letter]) = .ok (cond.fields, [size.letter]) := by
  cases cond with
  | named neg name => cases neg <;> cases name <;> cases size <;> rfl
  | parity neg => cases neg <;> cases size <;> rfl
  | parityName odd => cases odd <;> cases size <;> rfl

end

/-! The whole suffix, for each kind of operation. -/

section

variable {original : String} {stem : Stem} {suffix : List Char} {r r' : Reading}

theorem parseSuffix_plain (listed : r.op ∈ Stem.bare ++ Stem.sized ++ Stem.opsIgnore ++ [Stem.movsx, .movz]) :
    parseSuffix r suffix = parseEnd r suffix := by
  have known : ∀ op ∈ Stem.bare ++ Stem.sized ++ Stem.opsIgnore ++ [Stem.movsx, .movz],
      op ∉ Stem.opsShift ∧ op ≠ .bt ∧ ¬(op = .cl ∨ op = .st) ∧ ¬(op = .set ∨ op = .j ∨ op = .loop ∨ op = .cmov) := by
    decide
  obtain ⟨shift, bt, flag, cond⟩ := known r.op listed
  simp only [parseSuffix, parseFragment, shift, bt, flag, cond, if_false]
  rfl

theorem parseSuffix_shift (listed : r.op ∈ [Stem.rc, .ro, .sa, .sh]) :
    parseSuffix r suffix = parseShift r suffix >>= fun p => parseEnd p.1 p.2 := by
  have known : ∀ op ∈ [Stem.rc, .ro, .sa, .sh], op ∈ Stem.opsShift := by decide
  simp only [parseSuffix, parseFragment, known r.op listed, if_true]

theorem parseSuffix_bt (op : r.op = .bt) :
    parseSuffix r suffix = parseEnd (parseBt r suffix).1 (parseBt r suffix).2 := by
  have other : Stem.bt ∉ Stem.opsShift := by decide
  simp only [parseSuffix, parseFragment, op, other, if_false, if_true]
  rfl

theorem parseSuffix_flag (listed : r.op = .cl ∨ r.op = .st) :
    parseSuffix r suffix = parseFlag r suffix >>= fun p => parseEnd p.1 p.2 := by
  have others : r.op ∉ Stem.opsShift ∧ r.op ≠ .bt := by
    rcases listed with op | op <;> rw [op] <;> decide
  simp only [parseSuffix, parseFragment, others, listed, if_false, if_true]

theorem parseSuffix_cond (listed : r.op = .set ∨ r.op = .j ∨ r.op = .loop ∨ r.op = .cmov) :
    parseSuffix r suffix = .ok r' ↔ ∃ fields rest, parseCond r.op.op suffix = .ok (fields, rest) ∧
      parseEnd { r with cond := fields } rest = .ok r' := by
  have others : r.op ∉ Stem.opsShift ∧ r.op ≠ .bt ∧ ¬(r.op = .cl ∨ r.op = .st) := by
    rcases listed with op | op | op | op <;> rw [op] <;> decide
  simp only [parseSuffix, parseFragment, others, listed, if_false, if_true, bind_ok_iff]
  constructor
  · rintro ⟨_, ⟨⟨fields, rest⟩, found, ⟨⟩⟩, ended⟩
    exact ⟨fields, rest, found, ended⟩
  · rintro ⟨fields, rest, found, ended⟩
    exact ⟨_, ⟨_, found, rfl⟩, ended⟩

theorem parseMnemonic_same (plain : textContains original "xmm" = false) (short : ¬(stem = .movs ∧ 1 < suffix.length))
    (ordinary : stem ∉ Stem.special) :
    parseMnemonic original stem suffix = parseSuffix { op := stem } suffix := by
  simp only [Stem.special, List.mem_append, not_or, List.mem_cons, List.not_mem_nil, not_false_eq_true,
    and_true] at ordinary
  obtain ⟨⟨tran, ignore⟩, jecxz, jcxz, smov⟩ := ordinary
  simp only [parseMnemonic, canonicalize, plain, short, smov, tran, ignore, jecxz, jcxz, or_false, if_false,
    Bool.false_eq_true]

theorem parseMnemonic_kept (plain : textContains original "xmm" = false)
    (kept : stem ∉ Stem.special ∧ stem ≠ .movs) :
    parseMnemonic original stem suffix = parseSuffix { op := stem } suffix :=
  parseMnemonic_same plain (fun both => kept.2 both.1) kept.1

theorem parseMnemonic_ignore (plain : textContains original "xmm" = false) (listed : stem ∈ Stem.opsIgnore) :
    parseMnemonic original stem suffix = .ok { op := stem, ignored := true } := by
  have known : ∀ op ∈ Stem.opsIgnore, ¬(op = .jecxz ∨ op = .jcxz) ∧ op ≠ .movs ∧ op ≠ .smov ∧ op ∉ Stem.opsTran ∧
      op ∉ Stem.opsSized := by decide
  obtain ⟨valid, movs, smov, tran, unsized⟩ := known stem listed
  simp only [parseMnemonic, canonicalize, plain, valid, movs, smov, tran, listed, false_and, if_false, if_true,
    Bool.false_eq_true]
  rw [parseSuffix_plain (by simp [listed])]
  exact (parseEnd_bare unsized).mpr ⟨rfl, rfl⟩

theorem parseMnemonic_tran (plain : textContains original "xmm" = false) (listed : stem ∈ Stem.opsTran) :
    parseMnemonic original stem suffix = .ok { op := .nop, size1 := some .q } := by
  have known : ∀ op ∈ Stem.opsTran, ¬(op = .jecxz ∨ op = .jcxz) ∧ op ≠ .movs ∧ op ≠ .smov := by decide
  obtain ⟨valid, movs, smov⟩ := known stem listed
  simp only [parseMnemonic, canonicalize, plain, valid, movs, smov, listed, false_and, if_false, if_true,
    Bool.false_eq_true]
  rw [parseSuffix_plain (by decide)]
  rfl

theorem parseMnemonic_bare (plain : textContains original "xmm" = false) (listed : stem ∈ Stem.bare) :
    parseMnemonic original stem suffix = .ok r ↔ suffix = [] ∧ r = { op := stem } := by
  have known : ∀ op ∈ Stem.bare, (op ∉ Stem.special ∧ op ≠ .movs) ∧ op ∉ Stem.opsSized := by decide
  obtain ⟨kept, unsized⟩ := known stem listed
  rw [parseMnemonic_kept plain kept, parseSuffix_plain (by simp [listed])]
  exact parseEnd_bare unsized

theorem parseMnemonic_sized (plain : textContains original "xmm" = false) (listed : stem ∈ Stem.sized)
    (short : ¬(stem = .movs ∧ 1 < suffix.length)) :
    parseMnemonic original stem suffix = .ok r ↔
      (∃ size : Size, suffix = [size.letter] ∧
        r = { op := if stem = .smov then .movs else stem, size1 := some size }) ∨
      (suffix = [] ∧ stem ∈ [Stem.nop, .jmp, .bswap] ∧
        r = { op := stem, size1 := some (if stem = .bswap then .l else .q) }) := by
  have known : ∀ op ∈ Stem.sized, op ∈ Stem.opsSized ∧ ¬(op = .movsx ∨ op = .movz) ∧
      (op = .smov ∨ op ∉ Stem.special) := by decide
  obtain ⟨sized, single, ordinary⟩ := known stem listed
  by_cases smov : stem = .smov
  · subst smov
    have alias_ : parseMnemonic original .smov suffix = parseSuffix { op := .movs } suffix := by
      simp [parseMnemonic, canonicalize, plain]
    rw [alias_, parseSuffix_plain (by decide), parseEnd_sized (by decide) (by simp)]
    simp
  · rw [parseMnemonic_same plain short (ordinary.resolve_left smov), parseSuffix_plain (by simp [listed]),
      parseEnd_sized sized single]
    simp only [smov, if_false]

theorem parseMnemonic_extending (plain : textContains original "xmm" = false) (signed : Bool)
    (long : signed = true → 1 < suffix.length) :
    parseMnemonic original (if signed then .movs else .movz) suffix = .ok r ↔
      ∃ size1 size2 : Size, suffix = [size1.letter, size2.letter] ∧
        r = { op := if signed then .movsx else .movz, size1 := some size1, size2 := some size2 } := by
  cases signed with
  | true =>
      have renamed : parseMnemonic original .movs suffix = parseSuffix { op := .movsx } suffix := by
        simp [parseMnemonic, canonicalize, plain, long rfl]
      simp only [if_true, renamed]
      rw [parseSuffix_plain (by decide), parseEnd_extending (.inl rfl)]
  | false =>
      simp only [Bool.false_eq_true, if_false]
      rw [parseMnemonic_same plain (by simp) (by decide), parseSuffix_plain (by decide), parseEnd_extending (.inr rfl)]

theorem parseMnemonic_shift (plain : textContains original "xmm" = false) (listed : stem ∈ [Stem.rc, .ro, .sa, .sh]) :
    parseMnemonic original stem suffix = .ok r ↔ ∃ (left noflag : Bool) (size : Size),
      (suffix = Spelling.direction left :: Spelling.shiftEnd noflag size ∧
        r = { op := stem, cLeft := left, cNoflag := noflag, size1 := some size }) ∨
      (stem = .sh ∧ suffix = Spelling.direction left :: 'd' :: Spelling.shiftEnd noflag size ∧
        r = { op := .shd, cLeft := left, cNoflag := noflag, size1 := some size }) := by
  have known : ∀ op ∈ [Stem.rc, .ro, .sa, .sh], op ∉ Stem.special ∧ op ≠ .movs := by decide
  rw [parseMnemonic_kept plain (known stem listed), parseSuffix_shift listed, parseShift_ended listed]

theorem parseMnemonic_bt (plain : textContains original "xmm" = false) :
    parseMnemonic original .bt suffix = .ok r ↔ ∃ (change : Option TestBit) (size : Size),
      suffix = (change.map TestBit.letter).toList ++ [size.letter] ∧
        r = { op := .bt, testBit := change, size1 := some size } := by
  rw [parseMnemonic_same plain (by simp) (by decide), parseSuffix_bt rfl, parseBt_ended rfl rfl]

theorem parseMnemonic_flag (plain : textContains original "xmm" = false) (sets : Bool) :
    parseMnemonic original (if sets then .st else .cl) suffix = .ok r ↔ ∃ bit : FlagBit,
      suffix = [bit.letter] ∧ r = { op := if sets then .st else .cl, flagBit := some bit } := by
  have facts : ∀ op ∈ [Stem.st, .cl], (op ∉ Stem.special ∧ op ≠ .movs) ∧ (op = .cl ∨ op = .st) ∧
      op ∉ Stem.opsSized := by decide
  obtain ⟨kept, flag, unsized⟩ := facts (if sets then .st else .cl) (by cases sets <;> simp)
  rw [parseMnemonic_kept plain kept, parseSuffix_flag flag, bind_ok_iff]
  constructor
  · rintro ⟨⟨a, rest⟩, found, ended⟩
    obtain ⟨bit, rfl, rfl⟩ := parseFlag_iff.mp found
    obtain ⟨rfl, rfl⟩ := (parseEnd_bare unsized).mp ended
    exact ⟨bit, rfl, rfl⟩
  · rintro ⟨bit, rfl, rfl⟩
    exact ⟨_, parseFlag_iff.mpr ⟨bit, rfl, rfl⟩, (parseEnd_bare unsized).mpr ⟨rfl, rfl⟩⟩

theorem parseMnemonic_condition (plain : textContains original "xmm" = false) (jumps : Bool) :
    parseMnemonic original (if jumps then .j else .set) suffix = .ok r ↔ ∃ cond : CondText, cond.ends = true ∧
      suffix = cond.text ∧ r = { op := if jumps then .j else .set, cond := cond.fields } := by
  have facts : ∀ op ∈ [Stem.j, .set], (op ∉ Stem.special ∧ op ≠ .movs) ∧
      (op = .set ∨ op = .j ∨ op = .loop ∨ op = .cmov) ∧ op ∉ Stem.opsSized ∧ op.op ≠ .loop := by decide
  obtain ⟨kept, cond, unsized, noLoop⟩ := facts (if jumps then .j else .set) (by cases jumps <;> simp)
  rw [parseMnemonic_kept plain kept, parseSuffix_cond cond]
  constructor
  · rintro ⟨fields, rest, found, ended⟩
    obtain ⟨rfl, rfl⟩ := (parseEnd_bare unsized).mp ended
    rcases parseCond_inv found with ⟨cond, text, rfl, ends⟩ | ⟨loop, _⟩
    · exact ⟨cond, ends rfl, by simpa using text, rfl⟩
    · exact absurd loop noLoop
  · rintro ⟨cond, ends, rfl, rfl⟩
    exact ⟨_, _, parseCond_text _ cond ends, (parseEnd_bare unsized).mpr ⟨rfl, rfl⟩⟩

theorem parseMnemonic_condSized (plain : textContains original "xmm" = false) (loops : Bool) :
    parseMnemonic original (if loops then .loop else .cmov) suffix = .ok r ↔
      (∃ (cond : CondText) (size : Size), suffix = cond.text ++ [size.letter] ∧
        r = { op := if loops then .loop else .cmov, cond := cond.fields, size1 := some size }) ∨
      (loops = true ∧ suffix = ['q'] ∧ r = { op := .loop, size1 := some .q }) := by
  have facts : ∀ op ∈ [Stem.loop, .cmov], (op ∉ Stem.special ∧ op ≠ .movs) ∧
      (op = .set ∨ op = .j ∨ op = .loop ∨ op = .cmov) ∧ op ∈ [Stem.rc, .ro, .sa, .sh, .shd, .bt, .cmov, .loop] ∧
      (op.op = .loop → op = .loop) := by decide
  obtain ⟨kept, cond, sized, loop⟩ := facts (if loops then .loop else .cmov) (by cases loops <;> simp)
  rw [parseMnemonic_kept plain kept, parseSuffix_cond cond]
  constructor
  · rintro ⟨fields, rest, found, ended⟩
    obtain ⟨size, rfl, rfl⟩ := (parseEnd_single _ sized).mp ended
    rcases parseCond_inv found with ⟨cond, rfl, rfl, _⟩ | ⟨isLoop, head, rfl, rfl⟩
    · exact .inl ⟨cond, size, rfl, rfl⟩
    · have q : size = .q := by
        cases size <;> first | rfl | (exfalso; revert head; decide)
      cases loops with
      | true => exact .inr ⟨rfl, by rw [q]; rfl, by rw [q]; rfl⟩
      | false => cases loop isLoop
  · rintro (⟨cond, size, rfl, rfl⟩ | ⟨rfl, rfl, rfl⟩)
    · exact ⟨_, _, parseCond_sized _ cond size, (parseEnd_single _ sized).mpr ⟨size, rfl, rfl⟩⟩
    · exact ⟨{}, ['q'], rfl, (parseEnd_single _ sized).mpr ⟨.q, rfl, rfl⟩⟩

theorem parseMnemonic_spelled (plain : textContains original "xmm" = false) (movsx : stem ≠ .movsx) (shd : stem ≠ .shd)
    (parsed : parseMnemonic original stem suffix = .ok r) :
    ∃ s : Spelling, s.stem = stem ∧ s.suffix = suffix ∧ s.reading = r := by
  have kinds : ∀ stem ∈ Stem.groups, stem ∈ Stem.opsIgnore ∨ stem ∈ Stem.opsTran ∨ stem ∈ Stem.bare ∨
      stem ∈ Stem.sized ∨ stem ∈ [Stem.rc, .ro, .sa, .sh] ∨ stem = .movz ∨ stem = .bt ∨ (stem = .st ∨ stem = .cl) ∨
      (stem = .j ∨ stem = .set) ∨ (stem = .loop ∨ stem = .cmov) ∨ (stem = .jecxz ∨ stem = .jcxz) ∨
      (stem = .movsx ∨ stem = .shd) := by decide
  rcases kinds stem stem.mem_groups with listed | listed | listed | listed | listed | rfl | rfl | flag | cond | cond |
    invalid | hidden
  · rw [parseMnemonic_ignore plain listed] at parsed
    cases parsed
    exact ⟨.dropped stem suffix listed, rfl, rfl, rfl⟩
  · rw [parseMnemonic_tran plain listed] at parsed
    cases parsed
    exact ⟨.transaction stem suffix listed, rfl, rfl, rfl⟩
  · obtain ⟨rfl, rfl⟩ := (parseMnemonic_bare plain listed).mp parsed
    exact ⟨.bare stem listed, rfl, rfl, rfl⟩
  · by_cases extends_ : stem = .movs ∧ 1 < suffix.length
    · obtain ⟨rfl, long⟩ := extends_
      obtain ⟨size1, size2, rfl, rfl⟩ := (parseMnemonic_extending plain true fun _ => long).mp parsed
      exact ⟨.extending true size1 size2, rfl, rfl, rfl⟩
    · rcases (parseMnemonic_sized plain listed extends_).mp parsed with ⟨size, rfl, rfl⟩ | ⟨rfl, implied, rfl⟩
      · exact ⟨.sized stem size listed, rfl, rfl, rfl⟩
      · exact ⟨.implied stem implied, rfl, rfl, rfl⟩
  · obtain ⟨left, noflag, size, ⟨rfl, rfl⟩ | ⟨rfl, rfl, rfl⟩⟩ := (parseMnemonic_shift plain listed).mp parsed
    · exact ⟨.shift stem left noflag size listed, rfl, rfl, rfl⟩
    · exact ⟨.double left noflag size, rfl, rfl, rfl⟩
  · obtain ⟨size1, size2, rfl, rfl⟩ := (parseMnemonic_extending plain false (by simp)).mp parsed
    exact ⟨.extending false size1 size2, rfl, rfl, rfl⟩
  · obtain ⟨change, size, rfl, rfl⟩ := (parseMnemonic_bt plain).mp parsed
    exact ⟨.bitTest change size, rfl, rfl, rfl⟩
  · obtain ⟨sets, rfl⟩ : ∃ sets : Bool, stem = if sets then .st else .cl := by
      rcases flag with rfl | rfl
      · exact ⟨true, rfl⟩
      · exact ⟨false, rfl⟩
    obtain ⟨bit, rfl, rfl⟩ := (parseMnemonic_flag plain sets).mp parsed
    exact ⟨.flag sets bit, rfl, rfl, rfl⟩
  · obtain ⟨jumps, rfl⟩ : ∃ jumps : Bool, stem = if jumps then .j else .set := by
      rcases cond with rfl | rfl
      · exact ⟨true, rfl⟩
      · exact ⟨false, rfl⟩
    obtain ⟨cond, ends, rfl, rfl⟩ := (parseMnemonic_condition plain jumps).mp parsed
    exact ⟨.condition jumps cond ends, rfl, rfl, rfl⟩
  · rcases cond with rfl | rfl
    · rcases (parseMnemonic_condSized plain true).mp parsed with ⟨cond, size, rfl, rfl⟩ | ⟨_, rfl, rfl⟩
      · exact ⟨.loop cond size, rfl, rfl, rfl⟩
      · exact ⟨.loopAlways, rfl, rfl, rfl⟩
    · rcases (parseMnemonic_condSized plain false).mp parsed with ⟨cond, size, rfl, rfl⟩ | ⟨failed, _⟩
      · exact ⟨.move cond size, rfl, rfl, rfl⟩
      · cases failed
  · simp [parseMnemonic, invalid] at parsed
  · rcases hidden with rfl | rfl
    · exact absurd rfl movsx
    · exact absurd rfl shd

theorem Spelling.parseMnemonic (plain : textContains original "xmm" = false) (s : Spelling) :
    Tase.parseMnemonic original s.stem s.suffix = .ok s.reading := by
  cases s with
  | dropped stem rest listed => exact parseMnemonic_ignore plain listed
  | transaction stem rest listed => exact parseMnemonic_tran plain listed
  | bare stem listed => exact (parseMnemonic_bare plain listed).mpr ⟨rfl, rfl⟩
  | sized stem size listed =>
      exact (parseMnemonic_sized plain listed (by simp [suffix])).mpr (.inl ⟨size, rfl, rfl⟩)
  | implied stem listed =>
      have known : ∀ op ∈ [Stem.nop, .jmp, .bswap], op ∈ Stem.sized := by decide
      exact (parseMnemonic_sized plain (known stem listed) (by simp [suffix])).mpr (.inr ⟨rfl, listed, rfl⟩)
  | extending signed size1 size2 =>
      exact (parseMnemonic_extending plain signed (by simp [suffix])).mpr ⟨size1, size2, rfl, rfl⟩
  | shift stem left noflag size listed =>
      exact (parseMnemonic_shift plain listed).mpr ⟨left, noflag, size, .inl ⟨rfl, rfl⟩⟩
  | double left noflag size =>
      exact (parseMnemonic_shift plain (show Stem.sh ∈ _ by decide)).mpr ⟨left, noflag, size, .inr ⟨rfl, rfl, rfl⟩⟩
  | bitTest change size => exact (parseMnemonic_bt plain).mpr ⟨change, size, rfl, rfl⟩
  | flag sets bit => exact (parseMnemonic_flag plain sets).mpr ⟨bit, rfl, rfl⟩
  | condition jumps cond ends => exact (parseMnemonic_condition plain jumps).mpr ⟨cond, ends, rfl, rfl⟩
  | move cond size => exact (parseMnemonic_condSized plain false).mpr (.inl ⟨cond, size, rfl, rfl⟩)
  | loop cond size => exact (parseMnemonic_condSized plain true).mpr (.inl ⟨cond, size, rfl, rfl⟩)
  | loopAlways => exact (parseMnemonic_condSized plain true).mpr (.inr ⟨rfl, rfl, rfl⟩)

end

theorem Spelling.stem_listed (s : Spelling) : s.stem ≠ .movsx ∧ s.stem ≠ .shd := by
  have known : ∀ stem ∈ Stem.opsIgnore ++ Stem.opsTran ++ Stem.bare ++ Stem.sized ++
      [Stem.nop, .jmp, .bswap] ++ [Stem.rc, .ro, .sa, .sh], stem ≠ .movsx ∧ stem ≠ .shd := by decide
  cases s with
  | dropped stem rest listed => exact known stem (by simp [listed])
  | transaction stem rest listed => exact known stem (by simp [listed])
  | bare stem listed => exact known stem (by simp [listed])
  | sized stem size listed => exact known stem (by simp [listed])
  | implied stem listed => exact known stem (List.mem_append_left _ (List.mem_append_right _ listed))
  | shift stem left noflag size listed => exact known stem (List.mem_append_right _ listed)
  | extending signed size1 size2 => cases signed <;> exact ⟨by simp [stem], by simp [stem]⟩
  | flag sets bit => cases sets <;> exact ⟨by simp [stem], by simp [stem]⟩
  | condition jumps cond ends => cases jumps <;> exact ⟨by simp [stem], by simp [stem]⟩
  | double left noflag size => exact ⟨by simp [stem], by simp [stem]⟩
  | bitTest change size => exact ⟨by simp [stem], by simp [stem]⟩
  | move cond size => exact ⟨by simp [stem], by simp [stem]⟩
  | loop cond size => exact ⟨by simp [stem], by simp [stem]⟩
  | loopAlways => exact ⟨by simp [stem], by simp [stem]⟩

theorem Spelling.unblocked (s : Spelling) : ∀ t ∈ s.stem.blockers, ¬t <+: s.suffix := by
  have free {stem : Stem} {rest : List Char} (none : stem.blockers = []) : ∀ t ∈ stem.blockers, ¬t <+: rest := by
    simp [none]
  cases s with
  | dropped stem rest listed =>
      have known : ∀ stem ∈ Stem.opsIgnore, stem.blockers = [] := by decide
      exact free (known stem listed)
  | transaction stem rest listed =>
      have known : ∀ stem ∈ Stem.opsTran, stem.blockers = [] := by decide
      exact free (known stem listed)
  | bare stem listed =>
      have known : ∀ stem ∈ Stem.bare, ∀ t ∈ stem.blockers, ¬t <+: [] := by decide
      exact known stem listed
  | implied stem listed =>
      have known : ∀ stem ∈ [Stem.nop, .jmp, .bswap], ∀ t ∈ stem.blockers, ¬t <+: [] := by decide
      exact known stem listed
  | sized stem size listed =>
      have known : ∀ stem ∈ Stem.sized, ∀ t ∈ stem.blockers, ∀ size ∈ [Size.b, .w, .l, .q], ¬t <+: [size.letter] := by
        decide
      exact fun t blocks => known stem listed t blocks size (by cases size <;> simp)
  | extending signed size1 size2 =>
      have known : Stem.movs.blockers = [['s'], ['d']] ∧ Stem.movz.blockers = [] := by decide
      cases signed with
      | true => cases size1 <;> simp [stem, suffix, known, Size.letter]
      | false => exact free known.2
  | shift stem left noflag size listed =>
      have known : ∀ stem ∈ [Stem.rc, .ro, .sa, .sh], stem.blockers = [] := by decide
      exact free (known stem listed)
  | double left noflag size => exact free (show Stem.sh.blockers = [] by decide)
  | bitTest change size => exact free (show Stem.bt.blockers = [] by decide)
  | flag sets bit =>
      have known : Stem.st.blockers = [['o', 's']] ∧ Stem.cl.blockers = [['t', 'q'], ['t', 'd']] := by decide
      cases sets <;> simp [stem, suffix, known]
  | condition jumps cond ends =>
      have known : Stem.j.blockers = [['m', 'p'], ['e', 'c', 'x', 'z'], ['c', 'x', 'z']] ∧ Stem.set.blockers = [] := by
        decide
      cases jumps with
      | false => exact free known.2
      | true =>
          cases cond with
          | named neg name => cases neg <;> cases name <;> simp [stem, suffix, known, CondText.text, CondName.suffix,
              CondName.text]
          | parity neg => cases neg <;> simp [stem, suffix, known, CondText.text]
          | parityName odd => cases ends
  | move cond size => exact free (show Stem.cmov.blockers = [] by decide)
  | loop cond size => exact free (show Stem.loop.blockers = [] by decide)
  | loopAlways => exact free (show Stem.loop.blockers = [] by decide)

section

variable {original : String} (plain : textContains original "xmm" = false)

include plain

theorem readMnemonic_spelled {m : List Char} {r : Reading} (parsed : readMnemonic original m = .ok r) :
    ∃ s : Spelling, s.text = m ∧ s.reading = r := by
  unfold readMnemonic at parsed
  split at parsed
  · cases parsed
  · rename_i stem suffix found
    obtain ⟨movsx, shd⟩ := parseOp_hidden found
    obtain ⟨s, rfl, rfl, rfl⟩ := parseMnemonic_spelled plain movsx shd parsed
    exact ⟨s, (Table.first_inv found).1.symm, rfl⟩

theorem Spelling.readMnemonic (s : Spelling) : Tase.readMnemonic original s.text = .ok s.reading := by
  have found : parseOp s.text = some (s.stem, s.suffix) :=
    parseOp_text s.stem_listed.1 s.stem_listed.2 s.unblocked
  simp only [Tase.readMnemonic, found]
  exact s.parseMnemonic plain

end

/-- `_parse_op` and `_parse_mnemonic` accept the mnemonics of the grammar and no others, and read each
as what it stands for; a line that mentions `xmm` is not concerned. -/
theorem readMnemonic_iff {original : String} (plain : textContains original "xmm" = false) (m : List Char) (r : Reading) :
    readMnemonic original m = .ok r ↔ ∃ s : Spelling, s.text = m ∧ s.reading = r := by
  constructor
  · exact readMnemonic_spelled plain
  · rintro ⟨s, rfl, rfl⟩
    exact s.readMnemonic plain

theorem readMnemonic_iff_movslq : textContains "movslq %eax,%rbx" "xmm" = false ∧
    readMnemonic "movslq %eax,%rbx" ['m', 'o', 'v', 's', 'l', 'q'] =
      .ok { op := .movsx, size1 := some .l, size2 := some .q } := by
  have plain : textContains "movslq %eax,%rbx" "xmm" = false := by decide
  exact ⟨plain, (readMnemonic_iff plain _ _).mpr ⟨.extending true .l .q, rfl, rfl⟩⟩

end Tase
