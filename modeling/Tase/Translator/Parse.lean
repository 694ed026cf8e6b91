import Tase.Text.Regex
import Tase.Translator.Arithmetic

/-! The texts of operands, as `Operand._parse_operand` reads them. -/

namespace Tase

open Cpp Regex

inductive OperandGroup
  | reg | addr | symbol | imm | seg | offset | base | index | scale
deriving DecidableEq

/-! `\w` asks Unicode about characters beyond ASCII; `alnum` is its answer. -/

def isWordChar (alnum : Char → Bool) (c : Char) : Bool :=
  if c.toNat < 128 then c.isAlphanum || c = '_' else alnum c

def isSpaceChar (c : Char) : Bool :=
  (9 ≤ c.toNat && c.toNat ≤ 13) || (28 ≤ c.toNat && c.toNat ≤ 32) ||
    (0x2000 ≤ c.toNat && c.toNat ≤ 0x200a) ||
    c.toNat ∈ [0x85, 0xa0, 0x1680, 0x2028, 0x2029, 0x202f, 0x205f, 0x3000]

def isHexChar (c : Char) : Bool := c.isDigit || ('a' ≤ c && c ≤ 'f')

theorem isHexChar_toNat {c : Char} (hex : isHexChar c = true) :
    (48 ≤ c.toNat ∧ c.toNat ≤ 57) ∨ (97 ≤ c.toNat ∧ c.toNat ≤ 102) := by
  simp only [isHexChar, Char.isDigit, Bool.or_eq_true, Bool.and_eq_true, decide_eq_true_eq] at hex
  exact hex

theorem isHexChar_space {c : Char} (hex : isHexChar c = true) : isSpaceChar c = false := by
  have range := isHexChar_toNat hex
  simp only [isSpaceChar, Bool.or_eq_false_iff, Bool.and_eq_false_iff, decide_eq_false_iff_not,
    List.mem_cons, List.not_mem_nil, or_false, not_or]
  omega

namespace OperandText

open Pattern

variable (alnum : Char → Bool)

def register : Pattern OperandGroup :=
  -- `%(?P<reg>\w+)(?=,|$)`.
  .seq (char '%') (.seq (.group .reg (.plus (isWordChar alnum))) (.ahead (.alt (char ',') .stop)))

def address : Pattern OperandGroup :=
  -- `(?P<addr>[0-9a-f]+)\s+<(?P<symbol>\S+)>`.
  .seq (.group .addr (.plus isHexChar)) (.seq (.plus isSpaceChar)
    (.seq (char '<') (.seq (.group .symbol (.plus fun c => !isSpaceChar c)) (char '>'))))

def number : Pattern OperandGroup :=
  -- `(0x)?[0-9a-f]+`.
  .seq (.opt (chars ['0', 'x'])) (.plus isHexChar)

def immediate : Pattern OperandGroup :=
  -- `\$(?P<imm>(0x)?[0-9a-f]+)`.
  .seq (char '$') (.group .imm number)

def segment : Pattern OperandGroup :=
  -- `(%(?P<seg>\w+):)?`.
  .opt (.seq (char '%') (.seq (.group .seg (.plus (isWordChar alnum))) (char ':')))

def displacement : Pattern OperandGroup :=
  -- `(?P<offset>-?(0x)?[0-9a-f]+)?`.
  .opt (.group .offset (.seq (.opt (char '-')) number))

def registers : Pattern OperandGroup :=
  -- `(\((%(?P<base>\w+))?(,%(?P<index>\w+)(,(?P<scale>[1248]))?)?\))?`.
  .opt (.seq (char '(')
    (.seq (.opt (.seq (char '%') (.group .base (.plus (isWordChar alnum)))))
    (.seq (.opt (.seq (chars [',', '%']) (.seq (.group .index (.plus (isWordChar alnum)))
      (.opt (.seq (char ',') (.group .scale (.one fun c => c ∈ ['1', '2', '4', '8'])))))))
    (char ')'))))

def operand : Pattern OperandGroup :=
  -- `_regex_operand`.
  .alt (register alnum) (.alt address (.alt immediate
    (.seq (segment alnum) (.seq displacement (registers alnum)))))

end OperandText

def hexDigit (c : Char) : Nat := if c.isDigit then c.toNat - '0'.toNat else c.toNat - 'a'.toNat + 10

/-- Python's `int(text, 16)` of the texts that the groups hold. -/
def intHex : List Char → Int
  | '-' :: rest => -magnitude rest
  | text => magnitude text
where
  magnitude : List Char → Nat
    | '0' :: 'x' :: digits => digits.foldl (fun n c => 16 * n + hexDigit c) 0
    | digits => digits.foldl (fun n c => 16 * n + hexDigit c) 0

def intScale : List Char → Scale
  | ['2'] => .two
  | ['4'] => .four
  | ['8'] => .eight
  | _ => .one

/-! The tables of register names, in the order of `REG_64`. -/

def gprs64 : List (List Char × Gpr) :=
  [("rax".toList, .rax), ("rbx".toList, .rbx), ("rcx".toList, .rcx), ("rdx".toList, .rdx),
    ("rsi".toList, .rsi), ("rdi".toList, .rdi), ("rsp".toList, .rsp), ("rbp".toList, .rbp),
    ("r8".toList, .r8), ("r9".toList, .r9), ("r10".toList, .r10), ("r11".toList, .r11),
    ("r12".toList, .r12), ("r13".toList, .r13), ("r14".toList, .r14), ("r15".toList, .r15)]

def renamed (rename : List Char → List Char) (table : List (List Char × Gpr)) : List (List Char × Gpr) :=
  table.map fun entry => (rename entry.1, entry.2)

def replaced (old new : Char) (name : List Char) : List Char := name.map fun c => if c = old then new else c

def gprs32 : List (List Char × Gpr) :=
  renamed (replaced 'r' 'e') (gprs64.take 8) ++ renamed (· ++ ['d']) (gprs64.drop 8)

def gprs16 : List (List Char × Gpr) :=
  renamed (List.filter (· ≠ 'r')) (gprs64.take 8) ++ renamed (· ++ ['w']) (gprs64.drop 8)

def gprs8L : List (List Char × Gpr) :=
  renamed (replaced 'x' 'l') (gprs16.take 4) ++ renamed (· ++ ['l']) ((gprs16.drop 4).take 4) ++
    renamed (· ++ ['b']) (gprs64.drop 8)

def gprs8H : List (List Char × Gpr) := renamed (replaced 'l' 'h') (gprs8L.take 8)

/-- The register of a name; every other name is left to the emitters to reject. -/
def regName (name : List Char) : RegName :=
  if name = "rip".toList then .q .rip
  else if name = "efl".toList then .q .efl
  else ((gprs64.lookup name).map (RegName.q ∘ Reg.gpr) <|> (gprs32.lookup name).map RegName.d <|>
    (gprs16.lookup name).map RegName.w <|> (gprs8L.lookup name).map RegName.l <|>
    (gprs8H.lookup name).map RegName.h).getD (.other (String.ofList name))

structure ParsedOperand where
  operand : Operand
  text : List Char
deriving DecidableEq

def unknownFormat (text : List Char) : Error :=
  .assertion ("Unknown operand format " ++ String.ofList text)

def groupsOperand (groups : Groups OperandGroup) : Option Operand :=
  match groups .reg, groups .addr, groups .imm with
  | some name, _, _ => some (.reg (regName name))
  | none, some number, _ =>
      some (.addr (intHex number).toNat (String.ofList ((groups .symbol).getD [])))
  | none, none, some number => some (.imm (intHex number).toNat)
  | none, none, none =>
      if (groups .offset).isSome || (groups .base).isSome then
        some (.mem ⟨(groups .seg).map String.ofList, ((groups .offset).map intHex).getD 0,
          (groups .base).map regName, (groups .index).map regName,
          ((groups .scale).map intScale).getD .one⟩)
      else none

def splitStar : List Char → List Char × List Char
  | '*' :: rest => (['*'], rest)
  | text => ([], text)

def parseOperand (alnum : Char → Bool) (text : List Char) : Except Error ParsedOperand :=
  if text = [] then .error (.assertion "")
  else
    let (star, rest) := splitStar text
    match (OperandText.operand alnum).first rest with
    | none => .error (unknownFormat rest)
    | some (groups, left) =>
        match groupsOperand groups with
        | some operand => .ok ⟨operand, star ++ consumed rest left⟩
        | none => .error (unknownFormat rest)

theorem parseOperand_start {alnum : Char → Bool} {text : List Char} {p : ParsedOperand}
    (parsed : parseOperand alnum text = .ok p) : p.text <+: text := by
  have whole : (splitStar text).1 ++ (splitStar text).2 = text := by
    unfold splitStar
    split <;> rfl
  unfold parseOperand at parsed
  split at parsed
  · cases parsed
  · simp only at parsed
    split at parsed
    · cases parsed
    · rename_i groups left found
      split at parsed
      · cases parsed
        have matched := Pattern.first_consumed found
        exact ⟨left, by rw [List.append_assoc, matched, whole]⟩
      · cases parsed

theorem parseOperand_efl (alnum : Char → Bool) :
    parseOperand alnum "efl".toList = .ok ⟨eflTextOperand, "ef".toList⟩ := by
  rfl

structure DenotesAddress (alnum : Char → Bool) (text : List Char) (target : MemRef) (e : Exp) : Prop where
  parsed : ∃ p, parseOperand alnum text = .ok p ∧ p.operand = .mem target
  computed : target.addr = .ok e

namespace MemRef

variable {size : Size} {m : Mach}

theorem sum_toNat (n : Int) (base index : BitVec size.bits) (scale : Nat) :
    (((BitVec.ofInt size.bits n + base + index * BitVec.ofNat size.bits scale).setWidth 64).toNat : Int) =
      (n + base.toNat + index.toNat * scale) % 2 ^ size.bits := by
  have narrow : size.bits ≤ 64 := (size_cases size).2
  have joined : BitVec.ofInt size.bits n + base + index * BitVec.ofNat size.bits scale =
      BitVec.ofInt size.bits (n + base.toNat + index.toNat * scale) := by
    rw [BitVec.ofInt_add, BitVec.ofInt_add, BitVec.ofInt_mul, BitVec.ofInt_natCast, BitVec.ofInt_natCast,
      BitVec.ofInt_natCast, BitVec.ofNat_toNat, BitVec.ofNat_toNat, BitVec.setWidth_eq, BitVec.setWidth_eq]
  have positive : (0 : Int) < (2 ^ size.bits : Nat) := by exact_mod_cast Nat.two_pow_pos size.bits
  rw [joined, BitVec.toNat_setWidth_of_le narrow, BitVec.toNat_ofInt,
    Int.toNat_of_nonneg (Int.emod_nonneg _ (by omega))]
  norm_cast

end MemRef

/-- The emitted address is the sum of its parts at the address size, but for the least displacement of a
64-bit address: its literal is an `unsigned int`, and so is the negated one. -/
theorem address_text_iff {ub : Undef} {alnum : Char → Bool} {text : List Char} {target : MemRef} {e : Exp}
    {m : Mach} (denotes : DenotesAddress alnum text target e)
    (range : -2 ^ 31 ≤ target.offset ∧ target.offset < 2 ^ 31) :
    (((evalOn ub m e).conv (.uint 64)).toNat : Int) =
        (target.offset + (MemRef.part target.base target.addrBits m).toNat +
          (MemRef.part target.index target.addrBits m).toNat * target.scale.toNat) %
            2 ^ target.addrBits.bits ↔
      ¬(target.offset = -2 ^ 31 ∧ target.addrBits = .q) := by
  have computed : (evalOn ub m e).conv (.uint 64) = target.address ub m := by
    simp only [MemRef.address, denotes.computed]
  rw [computed, MemRef.address_displaced denotes.computed, MemRef.displaced, MemRef.sum_toNat]
  by_cases least : target.offset = -2 ^ 31 ∧ target.addrBits = .q
  · rw [if_pos ⟨least.2, by omega⟩]
    refine iff_of_false ?_ (not_not.mpr least)
    rw [least.2, least.1]
    generalize ((MemRef.part target.base .q m).toNat : Int) = base
    generalize ((MemRef.part target.index .q m).toNat : Int) * target.scale.toNat = index
    change ¬(-2 ^ 31 + 2 ^ 32 + base + index) % 2 ^ 64 = (-2 ^ 31 + base + index) % 2 ^ 64
    omega
  · have plain : ¬(target.addrBits = .q ∧ -2 ^ 32 < target.offset ∧ target.offset ≤ -2 ^ 31) := by
      rintro ⟨wide, _, below⟩
      exact least ⟨by omega, wide⟩
    rw [if_neg plain]
    exact iff_of_true rfl least

theorem address_text_iff_slot :
    ∃ target e, DenotesAddress (fun _ => false) "-0x8(%rax,%rcx,4)".toList target e ∧
      (((evalOn default onesInRegisters e).conv (.uint 64)).toNat : Int) =
        (-8 + (onesInRegisters.regs (.gpr .rax)).toNat + (onesInRegisters.regs (.gpr .rcx)).toNat * 4) %
          2 ^ 64 := by
  have denotes : DenotesAddress (fun _ => false) "-0x8(%rax,%rcx,4)".toList
      ⟨none, -8, some (.q (.gpr .rax)), some (.q (.gpr .rcx)), .four⟩ _ := ⟨⟨_, by rfl, rfl⟩, rfl⟩
  exact ⟨_, _, denotes, (address_text_iff denotes (by decide)).mpr (by decide)⟩

theorem least_displacement_wraps :
    ∃ e, DenotesAddress (fun _ => false) "-0x80000000(%rax)".toList
        ⟨none, -2 ^ 31, some (.q (.gpr .rax)), none, .one⟩ e ∧
      (((evalOn default onesInRegisters e).conv (.uint 64)).toNat : Int) = 0x80000001 ∧
      (-2 ^ 31 + (onesInRegisters.regs (.gpr .rax)).toNat) % 2 ^ 64 = (0xffffffff80000001 : Int) := by
  -- `-0x80000000` is `0x80000000` in C++: the address comes out 4 GiB too high.
  have denotes : DenotesAddress (fun _ => false) "-0x80000000(%rax)".toList
      ⟨none, -2 ^ 31, some (.q (.gpr .rax)), none, .one⟩ _ := ⟨⟨_, by rfl, rfl⟩, rfl⟩
  exact ⟨_, denotes, by decide, by decide⟩

end Tase
