import Tase.Text.Reading
import Tase.Translator.Parse

/-! The operands of AT&T syntax, what each stands for, and how `_regex_operand` reads it. -/

namespace Tase

open Regex Pattern

namespace Att

structure Word (accepts : Char → Bool) where
  chars : List Char
  nonempty : chars ≠ []
  accepted : ∀ c ∈ chars, accepts c = true

abbrev Name (alnum : Char → Bool) := Word fun c => isWordChar alnum c && !isSpaceChar c

structure Digits where
  zeros : Nat
  value : Nat

structure Numeral extends Digits where
  marked : Bool

structure Displacement extends Numeral where
  negative : Bool

structure Registers (alnum : Char → Bool) where
  base : Option (Name alnum)
  index : Option (Name alnum × Option Scale)

structure Memory (alnum : Char → Bool) where
  seg : Option (Name alnum)
  offset : Option Displacement
  registers : Option (Registers alnum)
  present : offset.isSome ∨ (registers.bind Registers.base).isSome

inductive Form (alnum : Char → Bool)
  | reg (name : Name alnum)
  | imm (n : Numeral)
  | addr (n : Digits) (gap : Word isSpaceChar) (symbol : Word fun c => !isSpaceChar c)
  | mem (m : Memory alnum)

structure Written (alnum : Char → Bool) where
  starred : Bool
  form : Form alnum

/-! The texts. -/

def Digits.text (n : Digits) : List Char := List.replicate n.zeros '0' ++ Nat.toDigits 16 n.value

def Numeral.text (n : Numeral) : List Char :=
  if n.marked then '0' :: 'x' :: n.toDigits.text else n.toDigits.text

def Displacement.text (d : Displacement) : List Char :=
  if d.negative then '-' :: d.toNumeral.text else d.toNumeral.text

def scaleChar : Scale → Char
  | .one => '1'
  | .two => '2'
  | .four => '4'
  | .eight => '8'

variable {alnum : Char → Bool}

def segText : Option (Name alnum) → List Char
  | none => []
  | some name => '%' :: (name.chars ++ [':'])

def offsetText : Option Displacement → List Char
  | none => []
  | some d => d.text

def baseText : Option (Name alnum) → List Char
  | none => []
  | some name => '%' :: name.chars

def scaleText : Option Scale → List Char
  | none => []
  | some s => [',', scaleChar s]

def indexText : Option (Name alnum × Option Scale) → List Char
  | none => []
  | some (name, scale) => ',' :: '%' :: (name.chars ++ scaleText scale)

def registersText : Option (Registers alnum) → List Char
  | none => []
  | some r => '(' :: (baseText r.base ++ (indexText r.index ++ [')']))

def Memory.text (m : Memory alnum) : List Char :=
  segText m.seg ++ (offsetText m.offset ++ registersText m.registers)

def Form.text : Form alnum → List Char
  | .reg name => '%' :: name.chars
  | .imm n => '$' :: n.text
  | .addr n gap symbol => n.text ++ (gap.chars ++ '<' :: (symbol.chars ++ ['>']))
  | .mem m => m.text

def starText (starred : Bool) : List Char := if starred then ['*'] else []

def Written.text (w : Written alnum) : List Char := starText w.starred ++ w.form.text

/-! The operands. -/

def Displacement.signed (d : Displacement) : Int := if d.negative then -(d.value : Int) else d.value

def Memory.operand (m : Memory alnum) : MemRef where
  seg := m.seg.map fun name => String.ofList name.chars
  offset := (m.offset.map Displacement.signed).getD 0
  base := (m.registers.bind Registers.base).map fun name => regName name.chars
  index := (m.registers.bind Registers.index).map fun i => regName i.1.chars
  scale := ((m.registers.bind Registers.index).bind Prod.snd).getD .one

def Form.operand : Form alnum → Operand
  | .reg name => .reg (regName name.chars)
  | .imm n => .imm n.value
  | .addr n _ symbol => .addr n.value (String.ofList symbol.chars)
  | .mem m => .mem m.operand

def Form.isAddr : Form alnum → Bool
  | .addr _ _ _ => true
  | _ => false

end Att

/-! A register is known by its name. -/

def nameIn (table : List (List Char × Gpr)) (g : Gpr) : List Char :=
  ((table.find? fun entry => entry.2 = g).map Prod.fst).getD []

def RegName.text : RegName → List Char
  | .q .rip => "rip".toList
  | .q .efl => "efl".toList
  | .q (.gpr g) => nameIn gprs64 g
  | .d g => nameIn gprs32 g
  | .w g => nameIn gprs16 g
  | .l g => nameIn gprs8L g
  | .h g => nameIn gprs8H g
  | .other name => name.toList

theorem nameIn_lookup {table : List (List Char × Gpr)} {name : List Char} {g : Gpr}
    (apart : ∀ entry ∈ table, nameIn table entry.2 = entry.1) (found : table.lookup name = some g) :
    nameIn table g = name := by
  obtain ⟨early, late, rfl, _⟩ := List.lookup_eq_some_iff.mp found
  exact apart (name, g) (by simp)

theorem regName_text (name : List Char) : (regName name).text = name := by
  unfold regName
  split
  · rename_i rip
    exact rip.symm
  split
  · rename_i efl
    exact efl.symm
  cases q : gprs64.lookup name with
  | some g => exact nameIn_lookup (by decide) q
  | none =>
      cases d : gprs32.lookup name with
      | some g => exact nameIn_lookup (by decide) d
      | none =>
          cases w : gprs16.lookup name with
          | some g => exact nameIn_lookup (by decide) w
          | none =>
              cases l : gprs8L.lookup name with
              | some g => exact nameIn_lookup (by decide) l
              | none =>
                  cases h : gprs8H.lookup name with
                  | some g => exact nameIn_lookup (by decide) h
                  | none => exact String.toList_ofList

theorem regName_injective : Function.Injective regName := by
  intro first second same
  rw [← regName_text first, same, regName_text]

/-! Character classes. -/

theorem isHexChar_ne {c d : Char} (hex : isHexChar c = true) (other : isHexChar d = false) : c ≠ d := by
  rintro rfl
  rw [hex] at other
  cases other

theorem isHexChar_digitChar : ∀ d < 16, isHexChar (Nat.digitChar d) = true := by decide

theorem hexDigit_digitChar : ∀ d < 16, hexDigit (Nat.digitChar d) = d := by decide

theorem toDigits_split (n : Nat) : n < 16 ∧ Nat.toDigits 16 n = [Nat.digitChar n] ∨
    Nat.toDigits 16 n = Nat.toDigits 16 (n / 16) ++ [Nat.digitChar (n % 16)] ∧ n / 16 < n := by
  by_cases small : n < 16
  · exact .inl ⟨small, Nat.toDigits_of_lt_base small⟩
  · refine .inr ⟨?_, by omega⟩
    rw [Nat.toDigits_eq_if (by decide), if_neg small]

theorem isHexChar_toDigits (n : Nat) : ∀ c ∈ Nat.toDigits 16 n, isHexChar c = true := by
  induction n using Nat.strongRecOn with
  | ind n ih =>
      rcases toDigits_split n with ⟨small, one⟩ | ⟨more, less⟩
      · intro c member
        rw [one, List.mem_singleton] at member
        rw [member]
        exact isHexChar_digitChar n small
      · intro c member
        rw [more, List.mem_append, List.mem_singleton] at member
        rcases member with early | last
        · exact ih (n / 16) less c early
        · rw [last]
          exact isHexChar_digitChar (n % 16) (Nat.mod_lt n (by decide))

theorem foldl_toDigits (n : Nat) : (Nat.toDigits 16 n).foldl (fun n c => 16 * n + hexDigit c) 0 = n := by
  induction n using Nat.strongRecOn with
  | ind n ih =>
      rcases toDigits_split n with ⟨small, one⟩ | ⟨more, less⟩
      · rw [one, List.foldl_cons, List.foldl_nil, hexDigit_digitChar n small, Nat.mul_zero, Nat.zero_add]
      · rw [more, List.foldl_append, ih (n / 16) less, List.foldl_cons, List.foldl_nil,
          hexDigit_digitChar (n % 16) (Nat.mod_lt n (by decide)), Nat.div_add_mod]

theorem foldl_zeros (k : Nat) : (List.replicate k '0').foldl (fun n c => 16 * n + hexDigit c) 0 = 0 := by
  induction k with
  | zero => rfl
  | succ k ih => exact ih

namespace Att

theorem Digits.hex (n : Digits) : ∀ c ∈ n.text, isHexChar c = true := by
  intro c member
  rcases List.mem_append.mp member with zero | digit
  · rw [List.eq_of_mem_replicate zero]
    rfl
  · exact isHexChar_toDigits n.value c digit

theorem Digits.text_ne_nil (n : Digits) : n.text ≠ [] :=
  List.append_ne_nil_of_right_ne_nil _ Nat.toDigits_ne_nil

theorem Digits.foldl (n : Digits) : n.text.foldl (fun n c => 16 * n + hexDigit c) 0 = n.value := by
  rw [text, List.foldl_append, foldl_zeros, foldl_toDigits]

theorem intHex_magnitude {text : List Char} (plain : text.head? ≠ some '-') :
    intHex text = intHex.magnitude text := by
  unfold intHex
  split
  · exact absurd rfl plain
  · rfl

theorem magnitude_hex {text : List Char} (hex : ∀ c ∈ text, isHexChar c = true) :
    intHex.magnitude text = text.foldl (fun n c => 16 * n + hexDigit c) 0 := by
  unfold intHex.magnitude
  split
  · exact absurd (hex 'x' (by simp)) (by decide)
  · rfl

theorem Digits.head?_ne (n : Digits) {c : Char} (other : isHexChar c = false) (rest : List Char) :
    (n.text ++ rest).head? ≠ some c := by
  obtain ⟨d, tail, begins⟩ := List.exists_cons_of_ne_nil n.text_ne_nil
  have hex : isHexChar d = true := n.hex d (by simp [begins])
  rw [begins, List.cons_append, List.head?_cons]
  exact fun same => isHexChar_ne hex other (Option.some.inj same)

theorem Numeral.head?_ne (n : Numeral) {c : Char} (other : isHexChar c = false) (rest : List Char) :
    (n.text ++ rest).head? ≠ some c := by
  unfold text
  split
  · intro same
    cases same
    cases other
  · exact n.toDigits.head?_ne other rest

theorem Numeral.magnitude (n : Numeral) : intHex.magnitude n.text = n.value := by
  unfold text
  split
  · exact n.toDigits.foldl
  · rw [magnitude_hex n.toDigits.hex, n.toDigits.foldl]

theorem Digits.intHex (n : Digits) : Tase.intHex n.text = n.value := by
  have plain := n.head?_ne (c := '-') (by decide) []
  rw [List.append_nil] at plain
  rw [intHex_magnitude plain, magnitude_hex n.hex, n.foldl]

theorem Numeral.intHex (n : Numeral) : Tase.intHex n.text = n.value := by
  have plain := n.head?_ne (c := '-') (by decide) []
  rw [List.append_nil] at plain
  rw [intHex_magnitude plain, n.magnitude]

theorem Displacement.intHex (d : Displacement) : Tase.intHex d.text = d.signed := by
  unfold text signed
  split
  · change -(intHex.magnitude d.toNumeral.text : Int) = _
    rw [d.toNumeral.magnitude]
  · exact d.toNumeral.intHex

/-! How each part is read. -/

def noted (groups : Groups OperandGroup) (name : OperandGroup) : Option (List Char) → Groups OperandGroup
  | none => groups
  | some word => Function.update groups name (some word)

section

variable {alnum : Char → Bool} {groups : Groups OperandGroup} {rest : List Char}

theorem Name.word (name : Name alnum) : ∀ c ∈ name.chars, isWordChar alnum c = true := by
  intro c member
  have both := name.accepted c member
  rw [Bool.and_eq_true] at both
  exact both.1

theorem reads_number (n : Numeral) (behind : Stops (fun c => isHexChar c || c = 'x') rest) :
    OperandText.number.Reads groups (n.text ++ rest) (groups, rest) := by
  have stops : Stops isHexChar rest := fun c head => (Bool.or_eq_false_iff.mp (behind c head)).1
  have digits : (Pattern.plus isHexChar).Reads groups (n.toDigits.text ++ rest) (groups, rest) :=
    Reads.plus n.toDigits.text_ne_nil n.toDigits.hex stops
  unfold Numeral.text
  split
  · exact Reads.seq (Reads.optSome (@Reads.chars _ _ _ _ ['0', 'x'])) digits
  · refine Reads.seq (Reads.optNone ?_) digits
    obtain ⟨d, tail, begins⟩ := List.exists_cons_of_ne_nil n.toDigits.text_ne_nil
    have hex := n.toDigits.hex
    rw [begins] at hex ⊢
    by_cases zero : d = '0'
    · -- behind a zero there is another digit or what stands behind the number
      rw [zero]
      refine Fails.charSeq (Fails.seqFirst (Fails.char ?_))
      cases tail with
      | nil =>
          intro head
          have marker := behind 'x' head
          cases marker
      | cons e tail =>
          intro head
          have digit := hex e (by simp)
          rw [Option.some.inj head] at digit
          cases digit
    · refine Fails.seqFirst (Fails.char fun head => zero (Option.some.inj head))

theorem reads_segment (seg : Option (Name alnum)) (plain : rest.head? ≠ some '%') :
    (OperandText.segment alnum).Reads groups (segText seg ++ rest)
      (noted groups .seg (seg.map Word.chars), rest) := by
  cases seg with
  | none => exact Reads.optNone (Fails.seqFirst (Fails.char plain))
  | some name =>
      have read : (Pattern.plus (isWordChar alnum)).Reads groups (name.chars ++ ':' :: rest)
          (groups, ':' :: rest) :=
        Reads.plus name.nonempty name.word (Stops.cons rfl)
      rw [segText, List.cons_append, List.append_assoc]
      exact Reads.optSome (Reads.seq Reads.char (Reads.seq (Reads.group read) Reads.char))

theorem reads_displacement (offset : Option Displacement)
    (behind : Stops (fun c => isHexChar c || c = 'x' || c = '-') rest) :
    OperandText.displacement.Reads groups (offsetText offset ++ rest)
      (noted groups .offset (offset.map Displacement.text), rest) := by
  have stops : Stops (fun c => isHexChar c || c = 'x') rest := fun c head =>
    (Bool.or_eq_false_iff.mp (behind c head)).1
  have other {c : Char} (begins : (isHexChar c || c = 'x' || c = '-') = true) : rest.head? ≠ some c := by
    intro head
    exact Bool.false_ne_true ((behind c head).symm.trans begins)
  cases offset with
  | none =>
      have digits : (Pattern.plus isHexChar : Pattern OperandGroup).Fails rest :=
        Fails.plus fun c head => (Bool.or_eq_false_iff.mp (stops c head)).1
      have number : OperandText.number.Fails rest :=
        Fails.optSeq (Fails.seqFirst (Fails.char (other rfl))) digits
      exact Reads.optNone (Fails.group (Fails.optSeq (Fails.char (other rfl)) number))
  | some d =>
      have number : OperandText.number.Reads groups (d.toNumeral.text ++ rest) (groups, rest) :=
        reads_number d.toNumeral stops
      have signed : (Pattern.seq (.opt (.char '-')) OperandText.number).Reads groups (d.text ++ rest)
          (groups, rest) := by
        unfold Displacement.text
        split
        · exact Reads.seq (Reads.optSome Reads.char) number
        · exact Reads.seq (Reads.optNone (Fails.char (d.toNumeral.head?_ne (by decide) rest))) number
      exact Reads.optSome (Reads.group signed)

theorem reads_base (base : Option (Name alnum)) (plain : rest.head? ≠ some '%')
    (stops : Stops (isWordChar alnum) rest) :
    (Pattern.opt (.seq (.char '%') (.group .base (.plus (isWordChar alnum))))).Reads groups (baseText base ++ rest)
      (noted groups .base (base.map Word.chars), rest) := by
  cases base with
  | none => exact Reads.optNone (Fails.seqFirst (Fails.char plain))
  | some name =>
      exact Reads.optSome (Reads.seq Reads.char (Reads.group (Reads.plus name.nonempty name.word stops)))

theorem reads_scale (scale : Option Scale) (plain : rest.head? ≠ some ',') :
    (Pattern.opt (.seq (.char ',') (.group .scale (.one fun c => c ∈ ['1', '2', '4', '8'])))).Reads groups
      (scaleText scale ++ rest) (noted groups .scale (scale.map fun s => [scaleChar s]), rest) := by
  cases scale with
  | none => exact Reads.optNone (Fails.seqFirst (Fails.char plain))
  | some s =>
      have read : (Pattern.one fun c => c ∈ ['1', '2', '4', '8'] : Pattern OperandGroup).Reads groups
          ([scaleChar s] ++ rest) (groups, rest) := Reads.one (by cases s <;> rfl)
      exact Reads.optSome (Reads.seq Reads.char (Reads.group read))

theorem reads_index (index : Option (Name alnum × Option Scale)) (plain : rest.head? ≠ some ',')
    (stops : Stops (isWordChar alnum) rest) :
    (Pattern.opt (.seq (.chars [',', '%']) (.seq (.group .index (.plus (isWordChar alnum)))
      (.opt (.seq (.char ',') (.group .scale (.one fun c => c ∈ ['1', '2', '4', '8']))))))).Reads groups
      (indexText index ++ rest)
      (noted (noted groups .index (index.map fun i => i.1.chars))
        .scale ((index.bind Prod.snd).map fun s => [scaleChar s]), rest) := by
  cases index with
  | none => exact Reads.optNone (Fails.seqFirst (Fails.seqFirst (Fails.char plain)))
  | some i =>
      obtain ⟨name, scale⟩ := i
      have behind : Stops (isWordChar alnum) (scaleText scale ++ rest) := by
        cases scale with
        | none => exact stops
        | some s => exact Stops.cons rfl
      have read : (Pattern.plus (isWordChar alnum)).Reads groups (name.chars ++ (scaleText scale ++ rest))
          (groups, scaleText scale ++ rest) := Reads.plus name.nonempty name.word behind
      have text : indexText (some (name, scale)) ++ rest =
          [',', '%'] ++ (name.chars ++ (scaleText scale ++ rest)) := by simp [indexText]
      rw [text]
      exact Reads.optSome (Reads.seq Reads.chars (Reads.seq (Reads.group read) (reads_scale scale plain)))

theorem reads_registers (registers : Option (Registers alnum)) (plain : rest.head? ≠ some '(') :
    (OperandText.registers alnum).Reads groups (registersText registers ++ rest)
      (noted (noted (noted groups .base ((registers.bind Registers.base).map Word.chars))
        .index ((registers.bind Registers.index).map fun i => i.1.chars))
        .scale (((registers.bind Registers.index).bind Prod.snd).map fun s => [scaleChar s]), rest) := by
  cases registers with
  | none => exact Reads.optNone (Fails.seqFirst (Fails.char plain))
  | some r =>
      obtain ⟨base, index⟩ := r
      have closes : Stops (isWordChar alnum) (')' :: rest) := Stops.cons rfl
      have behind : Stops (isWordChar alnum) (indexText index ++ ')' :: rest) := by
        cases index with
        | none => exact closes
        | some i => exact Stops.cons rfl
      have unmarked : (indexText index ++ ')' :: rest).head? ≠ some '%' := by
        cases index with
        | none => exact fun head => by cases head
        | some i => exact fun head => by cases head
      have text : registersText (some ⟨base, index⟩) ++ rest =
          '(' :: (baseText base ++ (indexText index ++ ')' :: rest)) := by simp [registersText]
      have notComma : (')' :: rest).head? ≠ some ',' := fun head => by cases head
      rw [text]
      exact Reads.optSome (Reads.seq Reads.char (Reads.seq (reads_base base unmarked behind)
        (Reads.seq (reads_index index notComma closes) Reads.char)))

/-! Which alternative is taken. -/

/-- The next operand, if there is one, stands behind a comma. -/
def Delimited (tail : List Char) : Prop := ∀ c ∈ tail.head?, c = ','

theorem Delimited.stops {accepts : Char → Bool} {tail : List Char} (delimited : Delimited tail)
    (comma : accepts ',' = false) : Stops accepts tail := by
  intro c head
  rw [delimited c head, comma]

theorem Delimited.head?_ne {c : Char} {tail : List Char} (delimited : Delimited tail) (other : c ≠ ',') :
    tail.head? ≠ some c := fun head => other (delimited c head)

theorem address_fails {word : List Char} (hex : ∀ c ∈ word, isHexChar c = true) (stops : Stops isHexChar rest)
    (joined : Stops isSpaceChar rest) : OperandText.address.Fails (word ++ rest) := by
  refine Fails.wordSeq hex stops (Fails.seqFirst (Fails.plus joined)) ?_
  rintro left ⟨c, head, digit⟩
  refine Fails.seqFirst (Fails.plus fun d head' => ?_)
  rw [Option.mem_unique head' head]
  exact isHexChar_space digit

theorem ending_fails {c : Char} (comma : c ≠ ',') (line : c ≠ '\n') :
    (Pattern.alt (.char ',') .stop : Pattern OperandGroup).Fails (c :: rest) := by
  refine Fails.alt (Fails.char fun head => comma (Option.some.inj head)) fun groups => ?_
  rw [Pattern.run_stop, if_neg]
  rintro (empty | feed)
  · cases empty
  · exact line (List.cons.inj feed).1

theorem register_fails (name : Name alnum) :
    (OperandText.register alnum).Fails ('%' :: (name.chars ++ ':' :: rest)) := by
  refine Fails.charSeq (Fails.wordSeq name.word (Stops.cons rfl) ?_ ?_)
  · exact Fails.ahead (ending_fails (by decide) (by decide))
  · rintro left ⟨c, head, word⟩
    obtain ⟨tail, rfl⟩ := List.head?_eq_some_iff.mp head
    refine Fails.ahead (ending_fails ?_ ?_)
    · rintro rfl
      cases word
    · rintro rfl
      cases word

theorem register_reads {tail : List Char} (name : Name alnum) (delimited : Delimited tail) :
    (OperandText.register alnum).Reads groups ('%' :: (name.chars ++ tail))
      (Function.update groups .reg (some name.chars), tail) := by
  have read : (Pattern.plus (isWordChar alnum)).Reads groups (name.chars ++ tail) (groups, tail) :=
    Reads.plus name.nonempty name.word (delimited.stops rfl)
  refine Reads.seq Reads.char (Reads.seq (Reads.group read) ?_)
  cases tail with
  | nil => exact Reads.ahead (Reads.altRight (Fails.char (by simp)) Reads.stop)
  | cons c more =>
      rw [delimited c rfl]
      exact Reads.ahead (Reads.altLeft Reads.char)

theorem symbol_reads (symbol : Word fun c => !isSpaceChar c) :
    (Pattern.seq (.group .symbol (.plus fun c => !isSpaceChar c)) (.char '>')).Reads groups (symbol.chars ++ ['>'])
      (Function.update groups .symbol (some symbol.chars), []) := by
  -- the run takes the bracket with it, and gives it back
  obtain ⟨more, left⟩ := @rests_append _ ['>'] symbol.chars symbol.nonempty symbol.accepted
  have whole : rests (fun c => !isSpaceChar c) ['>'] = [[]] := rfl
  have ran : (Pattern.group OperandGroup.symbol (.plus fun c => !isSpaceChar c)).run groups
        (symbol.chars ++ ['>']) =
      [(Function.update groups .symbol (some (symbol.chars ++ ['>'])), [])] ++
        (Function.update groups .symbol (some symbol.chars), ['>']) ::
          more.map fun rest =>
            (Function.update groups .symbol (some (consumed (symbol.chars ++ ['>']) rest)), rest) := by
    rw [Pattern.run_group, Pattern.run_plus, left, whole]
    simp only [List.singleton_append, List.map_cons, List.map_map, consumed_append]
    have all : consumed (symbol.chars ++ ['>']) [] = symbol.chars ++ ['>'] := by
      simpa using consumed_append (symbol.chars ++ ['>']) []
    rw [all]
    rfl
  refine Reads.seq_later ran (fun s member => ?_) Reads.char
  rw [List.mem_singleton.mp member]
  exact Fails.char (by simp)

theorem address_reads (n : Digits) (gap : Word isSpaceChar) (symbol : Word fun c => !isSpaceChar c) :
    OperandText.address.Reads groups (n.text ++ (gap.chars ++ '<' :: (symbol.chars ++ ['>'])))
      (Function.update (Function.update groups .addr (some n.text)) .symbol (some symbol.chars), []) := by
  have behind : Stops isHexChar (gap.chars ++ '<' :: (symbol.chars ++ ['>'])) := by
    obtain ⟨c, tail, begins⟩ := List.exists_cons_of_ne_nil gap.nonempty
    have space : isSpaceChar c = true := gap.accepted c (by simp [begins])
    rw [begins]
    refine Stops.cons ?_
    by_contra hex
    rw [Bool.not_eq_false] at hex
    rw [isHexChar_space hex] at space
    cases space
  refine Reads.seq (Reads.group (Reads.plus n.text_ne_nil n.hex behind)) ?_
  refine Reads.seq (Reads.plus gap.nonempty gap.accepted (Stops.cons rfl)) ?_
  exact Reads.seq Reads.char (symbol_reads symbol)

theorem registersText_stops {accepts : Char → Bool} {tail : List Char} (registers : Option (Registers alnum))
    (delimited : Delimited tail) (bracket : accepts '(' = false) (comma : accepts ',' = false) :
    Stops accepts (registersText registers ++ tail) := by
  cases registers with
  | none => exact delimited.stops comma
  | some r => exact Stops.cons bracket

theorem offsetText_head?_ne {c : Char} (offset : Option Displacement) (notHex : isHexChar c = false)
    (sign : c ≠ '-') (behind : rest.head? ≠ some c) : (offsetText offset ++ rest).head? ≠ some c := by
  cases offset with
  | none => exact behind
  | some d =>
      change (d.text ++ rest).head? ≠ some c
      unfold Displacement.text
      split
      · exact fun head => sign (Option.some.inj head).symm
      · exact d.toNumeral.head?_ne notHex rest

theorem offsetText_not_address (offset : Option Displacement) (stops : Stops isHexChar rest)
    (joined : Stops isSpaceChar rest) : OperandText.address.Fails (offsetText offset ++ rest) := by
  cases offset with
  | none => exact Fails.seqFirst (Fails.group (Fails.plus stops))
  | some d =>
      change OperandText.address.Fails (d.text ++ rest)
      unfold Displacement.text Numeral.text
      split
      · exact Fails.seqFirst (Fails.group (Fails.plus (Stops.cons rfl)))
      · split
        · exact @address_fails _ ['0'] (List.all_eq_true.mp rfl) (Stops.cons rfl) (Stops.cons rfl)
        · exact address_fails d.toDigits.hex stops joined

def Memory.captured (m : Memory alnum) : Groups OperandGroup :=
  noted (noted (noted (noted (noted (fun _ => none) .seg (m.seg.map Word.chars))
    .offset (m.offset.map Displacement.text)) .base ((m.registers.bind Registers.base).map Word.chars))
    .index ((m.registers.bind Registers.index).map fun i => i.1.chars))
    .scale (((m.registers.bind Registers.index).bind Prod.snd).map fun s => [scaleChar s])

theorem Memory.reads {tail : List Char} (m : Memory alnum) (delimited : Delimited tail) :
    (OperandText.operand alnum).Reads (fun _ => none) (m.text ++ tail) (m.captured, tail) := by
  have text : m.text ++ tail =
      segText m.seg ++ (offsetText m.offset ++ (registersText m.registers ++ tail)) := by
    rw [Memory.text, List.append_assoc, List.append_assoc]
  have begins {c : Char} (notHex : isHexChar c = false) (sign : c ≠ '-') (bracket : c ≠ '(') (comma : c ≠ ',') :
      (offsetText m.offset ++ (registersText m.registers ++ tail)).head? ≠ some c := by
    refine offsetText_head?_ne m.offset notHex sign fun head => ?_
    have stops : Stops (· = c) (registersText m.registers ++ tail) :=
      registersText_stops m.registers delimited (by simpa using bracket.symm) (by simpa using comma.symm)
    simpa using stops c head
  have notRegister : (OperandText.register alnum).Fails (m.text ++ tail) := by
    rw [text]
    cases m.seg with
    | none => exact Fails.seqFirst (Fails.char (begins rfl (by decide) (by decide) (by decide)))
    | some name =>
        rw [segText, List.cons_append, List.append_assoc]
        exact register_fails name
  have notAddress : OperandText.address.Fails (m.text ++ tail) := by
    rw [text]
    cases m.seg with
    | none =>
        exact offsetText_not_address m.offset (registersText_stops m.registers delimited rfl rfl)
          (registersText_stops m.registers delimited rfl rfl)
    | some name => exact Fails.seqFirst (Fails.group (Fails.plus (Stops.cons rfl)))
  have notImmediate : OperandText.immediate.Fails (m.text ++ tail) := by
    rw [text]
    cases m.seg with
    | none => exact Fails.seqFirst (Fails.char (begins rfl (by decide) (by decide) (by decide)))
    | some name => exact Fails.seqFirst (Fails.char fun head => by cases head)
  refine Reads.altRight notRegister (Reads.altRight notAddress (Reads.altRight notImmediate ?_))
  rw [text]
  refine Reads.seq (reads_segment m.seg (begins rfl (by decide) (by decide) (by decide))) ?_
  refine Reads.seq (reads_displacement m.offset (registersText_stops m.registers delimited rfl rfl)) ?_
  exact reads_registers m.registers (delimited.head?_ne (by decide))

theorem noted_same (word : Option (List Char)) (name : OperandGroup) :
    noted groups name word name = (word <|> groups name) := by
  cases word with
  | none => rfl
  | some w => exact Function.update_self name (some w) groups

theorem noted_other {name other : OperandGroup} (word : Option (List Char)) (apart : other ≠ name) :
    noted groups name word other = groups other := by
  cases word with
  | none => rfl
  | some w => exact Function.update_of_ne apart (some w) groups

theorem intScale_scaleChar (s : Scale) : intScale [scaleChar s] = s := by cases s <;> rfl

theorem Memory.groupsOperand (m : Memory alnum) : Tase.groupsOperand m.captured = some (.mem m.operand) := by
  have found : ((m.captured .offset).isSome || (m.captured .base).isSome) = true := by
    rw [Bool.or_eq_true]
    rcases m.present with offset | base
    · left
      simpa [Memory.captured, noted_same, noted_other] using offset
    · right
      have named : m.captured .base = (m.registers.bind Registers.base).map Word.chars := by
        simp [Memory.captured, noted_same, noted_other]
      rwa [named, Option.isSome_map]
  have parts : m.captured .reg = none ∧ m.captured .addr = none ∧ m.captured .imm = none := by
    simp [Memory.captured, noted_other]
  have reference : (⟨(m.captured .seg).map String.ofList, ((m.captured .offset).map Tase.intHex).getD 0,
      (m.captured .base).map regName, (m.captured .index).map regName,
      ((m.captured .scale).map intScale).getD .one⟩ : MemRef) = m.operand := by
    simp [Memory.captured, noted_same, noted_other, Memory.operand, Function.comp_def, Displacement.intHex,
      intScale_scaleChar]
  rw [Tase.groupsOperand, parts.1, parts.2.1, parts.2.2]
  simp only [found, if_true, reference]

theorem Form.reads {tail : List Char} (f : Form alnum) (delimited : Delimited tail)
    (last : f.isAddr = true → tail = []) :
    ∃ captured, (OperandText.operand alnum).first (f.text ++ tail) = some (captured, tail) ∧
      Tase.groupsOperand captured = some f.operand := by
  cases f with
  | reg name => exact ⟨_, (Reads.altLeft (register_reads name delimited)).first, rfl⟩
  | imm n =>
      have notRegister : (OperandText.register alnum).Fails ('$' :: (n.text ++ tail)) :=
        Fails.seqFirst (Fails.char fun head => by cases head)
      have notAddress : OperandText.address.Fails ('$' :: (n.text ++ tail)) :=
        Fails.seqFirst (Fails.group (Fails.plus (Stops.cons rfl)))
      have read : OperandText.immediate.Reads (fun _ => none) ('$' :: (n.text ++ tail)) _ :=
        Reads.seq Reads.char (Reads.group (reads_number n (delimited.stops rfl)))
      refine ⟨_, (Reads.altRight notRegister (Reads.altRight notAddress (Reads.altLeft read))).first, ?_⟩
      change some (Operand.imm (Tase.intHex n.text).toNat) = _
      rw [n.intHex, Int.toNat_natCast]
      rfl
  | addr n gap symbol =>
      rw [last rfl, List.append_nil]
      have notRegister : (OperandText.register alnum).Fails (Form.addr n gap symbol : Form alnum).text :=
        Fails.seqFirst (Fails.char (n.head?_ne (by decide) _))
      refine ⟨_, (Reads.altRight notRegister (Reads.altLeft (address_reads n gap symbol))).first, ?_⟩
      change some (Operand.addr (Tase.intHex n.text).toNat (String.ofList symbol.chars)) = _
      rw [n.intHex, Int.toNat_natCast]
      rfl
  | mem m => exact ⟨m.captured, (m.reads delimited).first, m.groupsOperand⟩

end

end Att

end Tase
