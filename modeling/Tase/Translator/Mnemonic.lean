import Tase.Text.Table
import Tase.Translator.Compare
import Tase.Translator.ParseOperands
import Tase.Translator.Shift

/-! Mnemonics, as `Instruction` takes them apart: an operation from the tables, and a suffix. -/

namespace Tase

/-- The operations of the tables, in the order in which the tables are searched. -/
inductive Stem
  | v | f | ud | pinsr | pcmpe | por | pxor | ptest | movss | movsd | movhps | movdqa | movaps
  | xend | xbegin | xabort
  | cmpxchg8b | cmpxchg16b | cmpxchg | xadd | xchg
  | cmps | lods | movs | smov | scas | stos
  | adc | add | sbb | sub | cmp | and | or | xor | not | neg | dec | inc | div | idiv | mul | imul
  | set | bsf | bsr | bt | test
  | call | ret | loop | jmp | jecxz | jcxz | j | hlt
  | cbtw | cwtl | cltq | cwtd | cltd | cqtd | cqto
  | pushf | popf | cl | st | cmc
  | rc | ro | sa | sh | shd
  | bswap | cmov | enter | leave | lea | movabs | movsx | movz | mov | nop | pop | push
deriving DecidableEq, Repr

namespace Stem

def text : Stem → List Char
  | .v => ['v'] | .f => ['f'] | .ud => ['u', 'd'] | .pinsr => ['p', 'i', 'n', 's', 'r']
  | .pcmpe => ['p', 'c', 'm', 'p', 'e'] | .por => ['p', 'o', 'r'] | .pxor => ['p', 'x', 'o', 'r']
  | .ptest => ['p', 't', 'e', 's', 't'] | .movss => ['m', 'o', 'v', 's', 's']
  | .movsd => ['m', 'o', 'v', 's', 'd'] | .movhps => ['m', 'o', 'v', 'h', 'p', 's']
  | .movdqa => ['m', 'o', 'v', 'd', 'q', 'a'] | .movaps => ['m', 'o', 'v', 'a', 'p', 's']
  | .xend => ['x', 'e', 'n', 'd'] | .xbegin => ['x', 'b', 'e', 'g', 'i', 'n']
  | .xabort => ['x', 'a', 'b', 'o', 'r', 't']
  | .cmpxchg8b => ['c', 'm', 'p', 'x', 'c', 'h', 'g', '8', 'b']
  | .cmpxchg16b => ['c', 'm', 'p', 'x', 'c', 'h', 'g', '1', '6', 'b']
  | .cmpxchg => ['c', 'm', 'p', 'x', 'c', 'h', 'g'] | .xadd => ['x', 'a', 'd', 'd']
  | .xchg => ['x', 'c', 'h', 'g'] | .cmps => ['c', 'm', 'p', 's'] | .lods => ['l', 'o', 'd', 's']
  | .movs => ['m', 'o', 'v', 's'] | .smov => ['s', 'm', 'o', 'v'] | .scas => ['s', 'c', 'a', 's']
  | .stos => ['s', 't', 'o', 's'] | .adc => ['a', 'd', 'c'] | .add => ['a', 'd', 'd']
  | .sbb => ['s', 'b', 'b'] | .sub => ['s', 'u', 'b'] | .cmp => ['c', 'm', 'p'] | .and => ['a', 'n', 'd']
  | .or => ['o', 'r'] | .xor => ['x', 'o', 'r'] | .not => ['n', 'o', 't'] | .neg => ['n', 'e', 'g']
  | .dec => ['d', 'e', 'c'] | .inc => ['i', 'n', 'c'] | .div => ['d', 'i', 'v']
  | .idiv => ['i', 'd', 'i', 'v'] | .mul => ['m', 'u', 'l'] | .imul => ['i', 'm', 'u', 'l']
  | .set => ['s', 'e', 't'] | .bsf => ['b', 's', 'f'] | .bsr => ['b', 's', 'r'] | .bt => ['b', 't']
  | .test => ['t', 'e', 's', 't'] | .call => ['c', 'a', 'l', 'l'] | .ret => ['r', 'e', 't']
  | .loop => ['l', 'o', 'o', 'p'] | .jmp => ['j', 'm', 'p'] | .jecxz => ['j', 'e', 'c', 'x', 'z']
  | .jcxz => ['j', 'c', 'x', 'z'] | .j => ['j'] | .hlt => ['h', 'l', 't'] | .cbtw => ['c', 'b', 't', 'w']
  | .cwtl => ['c', 'w', 't', 'l'] | .cltq => ['c', 'l', 't', 'q'] | .cwtd => ['c', 'w', 't', 'd']
  | .cltd => ['c', 'l', 't', 'd'] | .cqtd => ['c', 'q', 't', 'd'] | .cqto => ['c', 'q', 't', 'o']
  | .pushf => ['p', 'u', 's', 'h', 'f'] | .popf => ['p', 'o', 'p', 'f'] | .cl => ['c', 'l']
  | .st => ['s', 't'] | .cmc => ['c', 'm', 'c'] | .rc => ['r', 'c'] | .ro => ['r', 'o'] | .sa => ['s', 'a']
  | .sh => ['s', 'h'] | .shd => ['s', 'h', '_', 'd'] | .bswap => ['b', 's', 'w', 'a', 'p']
  | .cmov => ['c', 'm', 'o', 'v'] | .enter => ['e', 'n', 't', 'e', 'r'] | .leave => ['l', 'e', 'a', 'v', 'e']
  | .lea => ['l', 'e', 'a'] | .movabs => ['m', 'o', 'v', 'a', 'b', 's'] | .movsx => ['m', 'o', 'v', 's', 'x']
  | .movz => ['m', 'o', 'v', 'z'] | .mov => ['m', 'o', 'v'] | .nop => ['n', 'o', 'p'] | .pop => ['p', 'o', 'p']
  | .push => ['p', 'u', 's', 'h']

def opsIgnore : List Stem :=
  [.v, .f, .ud, .pinsr, .pcmpe, .por, .pxor, .ptest, .movss, .movsd, .movhps, .movdqa, .movaps]

def opsTran : List Stem := [.xend, .xbegin, .xabort]

def opsXchg : List Stem := [.cmpxchg8b, .cmpxchg16b, .cmpxchg, .xadd, .xchg]

def opsStr : List Stem := [.cmps, .lods, .movs, .smov, .scas, .stos]

def opsMath : List Stem :=
  [.adc, .add, .sbb, .sub, .cmp, .and, .or, .xor, .not, .neg, .dec, .inc, .div, .idiv, .mul, .imul]

def opsBit : List Stem := [.set, .bsf, .bsr, .bt, .test]

def opsFlow : List Stem := [.call, .ret, .loop, .jmp, .jecxz, .jcxz, .j, .hlt]

def opsConv : List Stem := [.cbtw, .cwtl, .cltq, .cwtd, .cltd, .cqtd, .cqto]

def opsFlag : List Stem := [.pushf, .popf, .cl, .st, .cmc]

def opsShift : List Stem := [.rc, .ro, .sa, .sh, .shd]

def opsData : List Stem :=
  [.bswap, .cmov, .enter, .leave, .lea, .movabs, .movsx, .movz, .mov, .nop, .pop, .push]

def opsSized : List Stem :=
  opsXchg.drop 2 ++ opsMath ++ opsShift ++ opsBit.drop 1 ++ opsFlow.take 4 ++ opsStr ++ opsFlag.take 2 ++ opsData

def groups : List Stem :=
  opsIgnore ++ opsTran ++ opsXchg ++ opsStr ++ opsMath ++ opsBit ++ opsFlow ++ opsConv ++ opsFlag ++ opsShift ++
    opsData

def op : Stem → Op
  | .nop => .nop | .xchg => .xchg | .xadd => .xadd | .lea => .lea | .mov => .mov | .cmov => .cmov
  | .push => .push | .pop => .pop | .enter => .enter | .leave => .leave | .add => .add | .sub => .sub
  | .adc => .adc | .sbb => .sbb | .cmp => .cmp | .neg => .neg | .inc => .inc | .dec => .dec | .mul => .mul
  | .div => .div | .and => .and | .or => .or | .xor => .xor | .not => .not | .rc => .rc | .ro => .ro
  | .sa => .sa | .sh => .sh | .shd => .shd | .call => .call | .ret => .ret | .loop => .loop | .j => .j
  | .set => .set | .bt => .bt | .test => .test | .bswap => .bswap | .pushf => .pushf | .popf => .popf
  | .cl => .cl | .st => .st | .cmc => .cmc
  | stem => .other (String.ofList stem.text)

end Stem

/-- The first group with a match, and in it the first operation that the mnemonic begins with. -/
def parseOp (m : List Char) : Option (Stem × List Char) := Table.first Stem.text Stem.groups m

structure Reading where
  op : Stem
  size1 : Option Size := none
  size2 : Option Size := none
  cond : CondFields := {}
  cLeft : Bool := false
  cNoflag : Bool := false
  flagBit : Option FlagBit := none
  testBit : Option TestBit := none
  ignored : Bool := false
deriving DecidableEq

def suffixSize : Char → Option Size
  -- `SUFFIX_SIZE`.
  | 'b' => some .b
  | 'w' => some .w
  | 'l' => some .l
  | 'q' => some .q
  | _ => none

def suffixTest : Char → Option TestBit
  -- `SUFFIX_TEST`.
  | 'c' => some .c
  | 'r' => some .r
  | 's' => some .s
  | _ => none

def suffixFlag : Char → Option FlagBit
  -- `SUFFIX_FLAG`.
  | 'c' => some .c
  | 'd' => some .d
  | 'i' => some .i
  | _ => none

def parseShift (r : Reading) : List Char → Except Error (Reading × List Char)
  | [] => .error (.assertion "Shift direction required")
  | direction :: suffix =>
      if direction = 'l' ∨ direction = 'r' then
        let double := r.op = .sh ∧ suffix.head? = some 'd'
        let suffix := if double then suffix.tail else suffix
        let noflag := 1 < suffix.length ∧ suffix.head? = some 'x'
        .ok ({ r with op := if double then .shd else r.op, cLeft := direction = 'l', cNoflag := noflag },
          if noflag then suffix.tail else suffix)
      else .error (.assertion "Shift direction required")

def parseBt (r : Reading) : List Char → Reading × List Char
  | [] => (r, [])
  | c :: suffix =>
      match suffixTest c with
      | some bit => ({ r with testBit := some bit }, suffix)
      | none => (r, c :: suffix)

def parseFlag (r : Reading) : List Char → Except Error (Reading × List Char)
  | [] => .error (.assertion "An eflags fragment is required")
  | c :: suffix =>
      match suffixFlag c with
      | some bit => .ok ({ r with flagBit := some bit }, suffix)
      | none => .error (.assertion "Unknown eflags bit")

def needSuffixSize (c : Char) : Except Error Size :=
  match suffixSize c with
  | some size => .ok size
  | none => .error (.assertion "Unknown size suffix")

def parseSize (r : Reading) (suffix : List Char) : Except Error (Reading × List Char) :=
  if (r.op = .nop ∨ r.op = .jmp) ∧ suffix = [] then .ok ({ r with size1 := some .q }, [])
  else if r.op = .bswap ∧ suffix = [] then .ok ({ r with size1 := some .l }, [])
  else
    match suffix with
    | [] => .error (.assertion "No operand size suffix")
    | c :: suffix => do
        let size1 ← needSuffixSize c
        if r.op = .movsx ∨ r.op = .movz then
          match suffix with
          | [] => .error (.assertion "Need 2 operand size suffixes for movsx/movsz")
          | d :: suffix => do
              let size2 ← needSuffixSize d
              return ({ r with size1 := some size1, size2 := some size2 }, suffix)
        else return ({ r with size1 := some size1 }, suffix)

/-- The first part of `_parse_mnemonic`: what is dropped, and the aliases. -/
def canonicalize (original : String) (op : Stem) (suffix : List Char) : Reading × List Char :=
  if textContains original "xmm" then ({ op := .nop, ignored := true }, [])
  else if op = .movs ∧ 1 < suffix.length then ({ op := .movsx }, suffix)
  else if op = .smov then ({ op := .movs }, suffix)
  else if op ∈ Stem.opsTran then ({ op := .nop }, [])
  else if op ∈ Stem.opsIgnore then ({ op := op, ignored := true }, [])
  else ({ op := op }, suffix)

def parseFragment (r : Reading) (suffix : List Char) : Except Error (Reading × List Char) :=
  if r.op ∈ Stem.opsShift then parseShift r suffix
  else if r.op = .bt then .ok (parseBt r suffix)
  else if r.op = .cl ∨ r.op = .st then parseFlag r suffix
  else if r.op = .set ∨ r.op = .j ∨ r.op = .loop ∨ r.op = .cmov then do
    let (cond, suffix) ← parseCond r.op.op suffix
    return ({ r with cond := cond }, suffix)
  else .ok (r, suffix)

def parseEnd (r : Reading) (suffix : List Char) : Except Error Reading := do
  let (r, suffix) ← if r.op ∈ Stem.opsSized then parseSize r suffix else .ok (r, suffix)
  if suffix = [] then return r
  else .error (.assertion ("Unable to use all of the suffix: " ++ String.ofList suffix))

def parseSuffix (r : Reading) (suffix : List Char) : Except Error Reading := do
  let (r, suffix) ← parseFragment r suffix
  parseEnd r suffix

def parseMnemonic (original : String) (op : Stem) (suffix : List Char) : Except Error Reading :=
  if op = .jecxz ∨ op = .jcxz then .error (.assertion "Invalid instruction in x86-64")
  else
    let (r, suffix) := canonicalize original op suffix
    parseSuffix r suffix

def readMnemonic (original : String) (m : List Char) : Except Error Reading :=
  -- `_parse_op` and `_parse_mnemonic`.
  match parseOp m with
  | none => .error (.assertion "Unknown instruction")
  | some (op, suffix) => parseMnemonic original op suffix

/-! The order of the tables. -/

namespace Stem

def earlier (stem : Stem) : List Stem := groups.takeWhile (· ≠ stem)

/-- What would have to follow for an earlier operation to be found. -/
def blockers (stem : Stem) : List (List Char) :=
  stem.earlier.filterMap fun e =>
    if stem.text.isPrefixOf e.text then some (e.text.drop stem.text.length) else none

theorem mem_groups (stem : Stem) : stem ∈ groups := by cases stem <;> decide

theorem earlier_apart : ∀ stem ∈ groups, stem ≠ .movsx → stem ≠ .shd → ∀ e ∈ stem.earlier, ¬e.text <+: stem.text := by
  decide +kernel

end Stem

theorem groups_split (stem : Stem) : ∃ later, Stem.groups = stem.earlier ++ stem :: later := by
  obtain ⟨early, later, split, new⟩ := List.eq_append_cons_of_mem stem.mem_groups
  have before : stem.earlier = early := by
    rw [Stem.earlier, split, List.takeWhile_append_of_pos, List.takeWhile_cons_of_neg, List.append_nil]
    · simp
    · intro e member
      simp only [decide_eq_true_eq]
      rintro rfl
      exact new member
  exact ⟨later, before ▸ split⟩

theorem parseOp_text {stem : Stem} {rest : List Char} (notMovsx : stem ≠ .movsx) (notShd : stem ≠ .shd)
    (free : ∀ t ∈ stem.blockers, ¬t <+: rest) : parseOp (stem.text ++ rest) = some (stem, rest) := by
  obtain ⟨later, split⟩ := groups_split stem
  rw [parseOp, split]
  refine Table.first_append fun e early here => ?_
  rcases List.prefix_or_prefix_of_prefix here (List.prefix_append stem.text rest) with shorter | longer
  · exact Stem.earlier_apart stem stem.mem_groups notMovsx notShd e early shorter
  · obtain ⟨t, same⟩ := longer
    rw [← same, List.prefix_append_right_inj] at here
    refine free t (List.mem_filterMap.mpr ⟨e, early, ?_⟩) here
    simp [← same]

theorem parseOp_hidden {m suffix : List Char} {stem : Stem} (found : parseOp m = some (stem, suffix)) :
    stem ≠ .movsx ∧ stem ≠ .shd := by
  obtain ⟨rfl, _⟩ := Table.first_inv found
  constructor
  · rintro rfl
    have earlier : parseOp (Stem.movs.text ++ 'x' :: suffix) = some (.movs, 'x' :: suffix) := by
      refine parseOp_text (by decide) (by decide) ?_
      simp [show Stem.movs.blockers = [['s'], ['d']] by decide]
    cases earlier.symm.trans found
  · rintro rfl
    have earlier : parseOp (Stem.sh.text ++ '_' :: 'd' :: suffix) = some (.sh, '_' :: 'd' :: suffix) := by
      refine parseOp_text (by decide) (by decide) ?_
      simp [show Stem.sh.blockers = [] by decide]
    cases earlier.symm.trans found

end Tase
