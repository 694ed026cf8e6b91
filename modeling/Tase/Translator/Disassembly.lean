import Tase.Translator.Decode

/-! Disassemblies as objdump prints them, and what is read of them. -/

namespace Tase

open Regex Pattern

namespace Att

inductive Prefix
  | lock | data16 | data32 | code16 | code32 | rep | repe | repne | repz | repnz
deriving DecidableEq

def Prefix.text : Prefix → List Char
  | .lock => ['l', 'o', 'c', 'k']
  | .data16 => ['d', 'a', 't', 'a', '1', '6']
  | .data32 => ['d', 'a', 't', 'a', '3', '2']
  | .code16 => ['c', 'o', 'd', 'e', '1', '6']
  | .code32 => ['c', 'o', 'd', 'e', '3', '2']
  | .rep => ['r', 'e', 'p']
  | .repe => ['r', 'e', 'p', 'e']
  | .repne => ['r', 'e', 'p', 'n', 'e']
  | .repz => ['r', 'e', 'p', 'z']
  | .repnz => ['r', 'e', 'p', 'n', 'z']

structure Arguments (alnum : Char → Bool) where
  gap : Word isSpaceChar
  operands : List (Written alnum)
  nonempty : operands ≠ []
  plain : ∀ c ∈ operandsText operands, c ≠ '#'
  last : ∀ w ∈ operands.dropLast, w.form.isAddr = false

/-- A mnemonic of the grammar, or, in a line that mentions `xmm`, any operation with anything behind it. -/
inductive Mnemonic
  | spelled (s : Spelling)
  | vector (stem : Stem) (suffix : List Char) (found : stem ∉ [Stem.movsx, .shd, .jecxz, .jcxz])
      (unblocked : ∀ t ∈ stem.blockers, ¬t <+: suffix)

namespace Mnemonic

def stem : Mnemonic → Stem
  | .spelled s => s.stem
  | .vector stem _ _ _ => stem

def suffix : Mnemonic → List Char
  | .spelled s => s.suffix
  | .vector _ suffix _ _ => suffix

def text (m : Mnemonic) : List Char := m.stem.text ++ m.suffix

def isVector : Mnemonic → Bool
  | .spelled _ => false
  | .vector _ _ _ _ => true

def reading : Mnemonic → Reading
  | .spelled s => s.reading
  | .vector _ _ _ _ => { op := .nop, size1 := some .q, ignored := true }

end Mnemonic

structure PrintedLine (alnum : Char → Bool) where
  indent : List Char
  address : Digits
  gap : Word isSpaceChar
  bytes : List (Char × Char)
  tab : Word isSpaceChar
  prefixes : List Prefix
  mnemonic : Mnemonic
  arguments : Option (Arguments alnum)
  padding : List Char
  comment : Option (List Char)
  indented : ∀ c ∈ indent, isSpaceChar c = true
  counted : isLength bytes.length = true
  encoded : ∀ byte ∈ bytes, isLowerChar byte.1 = true ∧ isLowerChar byte.2 = true
  lower : ∀ c ∈ mnemonic.text, isLowerChar c = true
  padded : ∀ c ∈ padding, isSpaceChar c = true

variable {alnum : Char → Bool}

def Arguments.text (a : Arguments alnum) : List Char := a.gap.chars ++ operandsText a.operands

namespace PrintedLine

variable (l : PrintedLine alnum)

def byteWords : List (List Char) := l.bytes.map fun byte => [byte.1, byte.2, ' ']

def prefixWords : List (List Char) := l.prefixes.map fun word => word.text ++ [' ']

def argumentText : List Char := (l.arguments.map Arguments.text).getD []

def commentText : List Char := (l.comment.map fun text => '#' :: text).getD []

def rest : List Char := l.argumentText ++ (l.padding ++ l.commentText)

def text : List Char :=
  l.indent ++ (l.address.text ++ (':' :: (l.gap.chars ++ (l.byteWords.flatten ++ (l.tab.chars ++
    (l.prefixWords.flatten ++ (l.mnemonic.text ++ l.rest)))))))

def operands : List Operand := (l.arguments.map fun a => a.operands.map fun w => w.form.operand).getD []

def record (original : String) : Except Error Instruction :=
  let r := l.mnemonic.reading
  if r.ignored then .ok (r.instruction original l.address.value l.bytes.length l.counted [])
  else (r.instruction original l.address.value l.bytes.length l.counted l.operands).fixupInstructions r.op

def instruction : Except Error Instruction := l.record (String.ofList l.text)

end PrintedLine

end Att

theorem parseMnemonic_vector {original : String} {stem : Stem} {suffix : List Char}
    (vector : textContains original "xmm" = true) (valid : ¬(stem = .jecxz ∨ stem = .jcxz)) :
    parseMnemonic original stem suffix = .ok { op := .nop, size1 := some .q, ignored := true } := by
  simp only [parseMnemonic, canonicalize, vector, valid, if_true, if_false]
  rw [parseSuffix_plain (by decide)]
  rfl

theorem Att.Mnemonic.readMnemonic {original : String} (m : Mnemonic)
    (vectors : m.isVector = textContains original "xmm") : Tase.readMnemonic original m.text = .ok m.reading := by
  cases m with
  | spelled s => exact s.readMnemonic vectors.symm
  | vector stem suffix found unblocked =>
      simp only [List.mem_cons, List.not_mem_nil, or_false, not_or] at found
      obtain ⟨movsx, shd, jecxz, jcxz⟩ := found
      change Tase.readMnemonic original (stem.text ++ suffix) = _
      simp only [Tase.readMnemonic, parseOp_text movsx shd unblocked]
      exact parseMnemonic_vector vectors.symm (by simp [jecxz, jcxz])

/-! Words. -/

section

variable {c : Char} {text spaces : List Char}

theorem isLowerChar_toNat (lower : isLowerChar c = true) :
    (48 ≤ c.toNat ∧ c.toNat ≤ 57) ∨ (97 ≤ c.toNat ∧ c.toNat ≤ 122) := by
  simp only [isLowerChar, Char.isDigit, Bool.or_eq_true, Bool.and_eq_true, decide_eq_true_eq] at lower
  rcases lower with ⟨low, high⟩ | ⟨low, high⟩
  · exact .inl ⟨low, high⟩
  · exact .inr ⟨low, high⟩

theorem isLowerChar_space (lower : isLowerChar c = true) : isSpaceChar c = false := by
  have bounds := isLowerChar_toNat lower
  simp only [isSpaceChar, List.mem_cons, List.not_mem_nil, or_false, Bool.or_eq_false_iff,
    Bool.and_eq_false_iff, decide_eq_false_iff_not]
  omega

theorem isSpaceChar_lower (space : isSpaceChar c = true) : isLowerChar c = false := by
  by_contra lower
  rw [isLowerChar_space (Bool.not_eq_false _ ▸ lower)] at space
  cases space

theorem strip_spaces (spaces : ∀ c ∈ text, isSpaceChar c = true) : strip text = [] := by
  rw [strip, List.dropWhile_eq_nil_iff.mpr spaces]
  rfl

theorem strip_padded (clean : Att.Clean text) (padded : ∀ c ∈ spaces, isSpaceChar c = true) :
    strip (text ++ spaces) = text := by
  by_cases empty : text = []
  · rw [empty, List.nil_append]
    exact strip_spaces padded
  · have same : strip (text ++ spaces) = strip text := by
      obtain ⟨c, tail, rfl⟩ := List.exists_cons_of_ne_nil empty
      have first := clean.begins c rfl
      rw [strip, strip, List.cons_append, List.dropWhile_cons_of_neg (by simp [first]),
        List.dropWhile_cons_of_neg (by simp [first]), ← List.cons_append, List.rdropWhile, List.rdropWhile,
        List.reverse_append, List.dropWhile_append_of_pos (by simpa using padded)]
    rw [same, Att.strip_clean clean]

theorem strip_lower (lower : ∀ c ∈ text, isLowerChar c = true) : strip text = text :=
  Att.strip_clean (Att.clean_of_spaceless fun c member => isLowerChar_space (lower c member))

end

/-! The parts of a line. -/

namespace Att.PrintedLine

variable {alnum : Char → Bool} (l : PrintedLine alnum)

theorem encodedByte_reads {a b : Char} (first : isLowerChar a = true) (second : isLowerChar b = true)
    (groups : Groups LineGroup) (rest : List Char) :
    LineText.encodedByte.Reads groups ([a, b, ' '] ++ rest) (groups, rest) :=
  Reads.seq (Reads.seq (Reads.one first) (Reads.seq (Reads.one second) ⟨[], rfl⟩)) (Reads.one rfl)

theorem encodedByte_fails {rest : List Char} (stops : Stops isLowerChar rest) : LineText.encodedByte.Fails rest :=
  Fails.seqFirst (Fails.seqFirst (Fails.one stops))

def prefixTexts : List (List Char) :=
  [Prefix.data16, .data32, .code16, .code32, .rep, .repe, .repne, .repz, .repnz].map Prefix.text

theorem prefixWord_eq : LineText.prefixWord = .seq (anyOf Prefix.lock.text prefixTexts) (char ' ') := rfl

theorem prefixWord_reads (word : Prefix) (groups : Groups LineGroup) (rest : List Char) :
    LineText.prefixWord.Reads groups (word.text ++ [' '] ++ rest) (groups, rest) := by
  rw [prefixWord_eq, List.append_assoc]
  refine Reads.anyOf ?_ (by decide)
  cases word <;> decide

theorem stem_apart : ∀ stem ∈ Stem.groups, ∀ word ∈ Prefix.lock.text :: prefixTexts,
    ¬word <+: stem.text ∧ ¬stem.text <+: word := by
  decide +kernel

theorem prefixWord_fails (stem : Stem) (rest : List Char) : LineText.prefixWord.Fails (stem.text ++ rest) := by
  rw [prefixWord_eq]
  refine Fails.seqFirst (Fails.anyOf fun word listed here => ?_)
  obtain ⟨shorter, longer⟩ := stem_apart stem stem.mem_groups word listed
  rcases List.prefix_or_prefix_of_prefix here (List.prefix_append stem.text rest) with inside | around
  · exact shorter inside
  · exact longer around

theorem splitSpace_byteWords : splitSpace l.byteWords.flatten = l.bytes.map fun byte => [byte.1, byte.2] := by
  have lower := l.encoded
  unfold byteWords
  generalize l.bytes = bytes at lower ⊢
  induction bytes with
  | nil => rfl
  | cons byte bytes ih =>
      obtain ⟨⟨first, second⟩, others⟩ := List.forall_mem_cons.mp lower
      have plain : ∀ c ∈ [byte.1, byte.2], isSpaceChar c = false := by
        simp [isLowerChar_space first, isLowerChar_space second]
      have split (rest : List Char) : ([byte.1, byte.2, ' '] ++ rest).splitOnP isSpaceChar =
          [byte.1, byte.2] :: rest.splitOnP isSpaceChar :=
        List.splitOnP_append_cons_of_forall_mem plain ' ' rfl rest
      rw [List.map_cons, List.flatten_cons, splitSpace, split, List.filter_cons_of_pos (by simp), List.map_cons]
      exact congrArg _ (ih others)

theorem encoded_reads (groups : Groups LineGroup) {rest : List Char} (stops : Stops isLowerChar rest) :
    (Pattern.group LineGroup.encoded (.seq LineText.encodedByte (.star LineText.encodedByte))).Reads groups
      (l.byteWords.flatten ++ rest) (Function.update groups .encoded (some l.byteWords.flatten), rest) := by
  refine Reads.group ?_
  have lower := l.encoded
  have some := isLength_pos l.counted
  unfold byteWords
  cases bytes : l.bytes with
  | nil =>
      rw [bytes] at some
      cases some
  | cons byte bytes =>
      rw [bytes] at lower
      obtain ⟨first, others⟩ := List.forall_mem_cons.mp lower
      rw [List.map_cons, List.flatten_cons, List.append_assoc]
      refine Reads.seq (encodedByte_reads first.1 first.2 groups _) (Reads.star ?_ ?_ (encodedByte_fails stops))
      · intro word member
        obtain ⟨byte, _, rfl⟩ := List.mem_map.mp member
        exact List.cons_ne_nil _ _
      · intro word member rest
        obtain ⟨byte, inside, rfl⟩ := List.mem_map.mp member
        exact encodedByte_reads (others byte inside).1 (others byte inside).2 groups rest

theorem prefixes_read (groups : Groups LineGroup) (stem : Stem) (rest : List Char) :
    (Pattern.group LineGroup.prefixes (.star LineText.prefixWord)).Reads groups
      (l.prefixWords.flatten ++ (stem.text ++ rest))
      (Function.update groups .prefixes (some l.prefixWords.flatten), stem.text ++ rest) := by
  refine Reads.group (Reads.star ?_ ?_ (prefixWord_fails stem rest))
  · intro word member
    obtain ⟨p, _, rfl⟩ := List.mem_map.mp member
    simp
  · intro word member rest
    obtain ⟨p, _, rfl⟩ := List.mem_map.mp member
    exact prefixWord_reads p groups rest

theorem commentText_stops : Stops (fun c => decide (c ≠ '#')) l.commentText := by
  unfold commentText
  cases l.comment with
  | none => simp [Stops]
  | some text => exact Stops.cons (by simp)

theorem padding_stops {accepts : Char → Bool} (spaceless : ∀ c, isSpaceChar c = true → accepts c = false)
    (hash : accepts '#' = false) : Stops accepts (l.padding ++ l.commentText) := by
  cases padding : l.padding with
  | nil =>
      unfold commentText
      cases l.comment with
      | none => simp [Stops]
      | some text => exact Stops.cons hash
  | cons c more => exact Stops.cons (spaceless c (l.padded c (by simp [padding])))

theorem padding_read {groups : Groups LineGroup} {r : Groups LineGroup × List Char}
    (found : r ∈ (Pattern.seq (.plus isSpaceChar) (.group LineGroup.operands (.plus fun c => c ≠ '#'))).run groups
      (l.padding ++ l.commentText)) : ∃ word, r.1 = Function.update groups .operands (some word) ∧
      ∀ c ∈ word, isSpaceChar c = true := by
  obtain ⟨s, gap, found⟩ := List.mem_flatMap.mp found
  obtain ⟨left, leaves, rfl⟩ := List.mem_map.mp gap
  obtain ⟨t, inside, rfl⟩ := List.mem_map.mp found
  obtain ⟨left', leaves', rfl⟩ := List.mem_map.mp inside
  obtain ⟨space, before, _, spaces⟩ := rests_word leaves
  obtain ⟨word, rfl, _, plain⟩ := rests_word leaves'
  refine ⟨word, by simp only [consumed_append], ?_⟩
  -- The word ends before the comment begins.
  rw [← List.append_assoc] at before
  rcases List.append_eq_append_iff.mp before with ⟨more, longer, rest⟩ | ⟨more, shorter, _⟩
  · cases more with
    | nil =>
        rw [List.append_nil] at longer
        intro c member
        exact l.padded c (longer ▸ List.mem_append_right _ member)
    | cons d more =>
        have hash : d = '#' := by simpa using l.commentText_stops d (by rw [rest]; rfl)
        have last : d ∈ space ++ word := by simp [longer]
        rw [hash] at last
        rcases List.mem_append.mp last with early | late
        · exact absurd (spaces '#' early) (by decide)
        · exact absurd (plain '#' late) (by decide)
  · intro c member
    refine l.padded c ?_
    rw [shorter]
    simp [member]

theorem rest_reads {groups : Groups LineGroup} (fresh : groups .operands = none) : ∃ word left,
    (Pattern.opt (.seq (.plus isSpaceChar) (.group LineGroup.operands (.plus fun c => c ≠ '#')))).Reads groups l.rest
      (Function.update groups .operands word, left) ∧
    strip (word.getD []) = (l.arguments.map fun a => operandsText a.operands).getD [] := by
  unfold rest argumentText
  cases arguments : l.arguments with
  | none =>
      simp only [Option.map_none, Option.getD_none, List.nil_append]
      cases ran : (Pattern.seq (.plus isSpaceChar) (.group LineGroup.operands (.plus fun c => c ≠ '#'))).run groups
          (l.padding ++ l.commentText) with
      | nil =>
          refine ⟨none, l.padding ++ l.commentText, ⟨[], ?_⟩, rfl⟩
          rw [run_opt, ran, ← fresh, Function.update_eq_self, List.nil_append]
      | cons r more =>
          obtain ⟨word, noted, spaces⟩ := l.padding_read (by rw [ran]; exact List.mem_cons_self)
          refine ⟨some word, r.2, Reads.optSome ⟨more, ?_⟩, strip_spaces spaces⟩
          rw [ran, ← noted]
  | some a =>
      have begins : Stops isSpaceChar (operandsText a.operands ++ (l.padding ++ l.commentText)) :=
        Stops.append (operandsText_ne_nil a.nonempty) (operandsText_clean a.operands).begins
      refine ⟨some (operandsText a.operands ++ l.padding), l.commentText, Reads.optSome ?_, ?_⟩
      · simp only [Option.map_some, Option.getD_some, Arguments.text, List.append_assoc]
        refine Reads.seq (Reads.plus a.gap.nonempty a.gap.accepted begins) ?_
        rw [← List.append_assoc]
        refine Reads.group (Reads.plus ?_ ?_ l.commentText_stops)
        · exact List.append_ne_nil_of_left_ne_nil (operandsText_ne_nil a.nonempty) _
        · intro c member
          rcases List.mem_append.mp member with inside | behind
          · simpa using a.plain c inside
          · have space := l.padded c behind
            simp only [ne_eq, decide_eq_true_eq]
            rintro rfl
            cases space
      · exact strip_padded (operandsText_clean a.operands) l.padded

theorem text_ne_nil : l.mnemonic.text ≠ [] := by
  have known : ∀ stem ∈ Stem.groups, stem.text ≠ [] := by decide
  exact List.append_ne_nil_of_left_ne_nil (known _ l.mnemonic.stem.mem_groups) _

theorem byteWords_stops (rest : List Char) : Stops isSpaceChar (l.byteWords.flatten ++ rest) := by
  unfold byteWords
  cases bytes : l.bytes with
  | nil => exact absurd (isLength_pos l.counted) (by simp [bytes])
  | cons byte bytes => exact Stops.cons (isLowerChar_space (l.encoded byte (by simp [bytes])).1)

theorem prefixWords_stops (rest : List Char) :
    Stops isSpaceChar (l.prefixWords.flatten ++ (l.mnemonic.text ++ rest)) := by
  unfold prefixWords
  cases l.prefixes with
  | nil =>
      rw [List.map_nil, List.flatten_nil, List.nil_append]
      refine Stops.append l.text_ne_nil fun c head => ?_
      exact isLowerChar_space (l.lower c (List.mem_of_mem_head? head))
  | cons word more => cases word <;> exact Stops.cons rfl

theorem rest_stops : Stops isLowerChar l.rest := by
  unfold rest argumentText
  cases l.arguments with
  | none => exact l.padding_stops (fun c space => isSpaceChar_lower space) rfl
  | some a =>
      rw [Option.map_some, Option.getD_some, Arguments.text, List.append_assoc]
      refine Stops.append a.gap.nonempty fun c head => ?_
      exact isSpaceChar_lower (a.gap.accepted c (List.mem_of_mem_head? head))

theorem matched : ∃ groups left, LineText.instr.first l.text = some (groups, left) ∧
    groups .vaddr = some l.address.text ∧ groups .encoded = some l.byteWords.flatten ∧
    groups .mnemonic = some l.mnemonic.text ∧
    strip ((groups .operands).getD []) = (l.arguments.map fun a => operandsText a.operands).getD [] := by
  let address : Groups LineGroup := Function.update (fun _ => none) .vaddr (some l.address.text)
  let bytes := Function.update address .encoded (some l.byteWords.flatten)
  let words := Function.update bytes .prefixes (some l.prefixWords.flatten)
  let all := Function.update words .mnemonic (some l.mnemonic.text)
  have fresh : all .operands = none := rfl
  obtain ⟨word, left, arguments, stripped⟩ := l.rest_reads fresh
  refine ⟨Function.update all .operands word, left, Reads.first ?_, rfl, rfl, rfl, stripped⟩
  refine Reads.seq (Reads.optPlus l.indented ?_) ?_
  · refine Stops.append l.address.text_ne_nil fun c head => ?_
    exact isHexChar_space (l.address.hex c (List.mem_of_mem_head? head))
  refine Reads.seq (Reads.group (Reads.plus l.address.text_ne_nil l.address.hex (Stops.cons rfl))) ?_
  refine Reads.seq Reads.char (Reads.seq (Reads.plus l.gap.nonempty l.gap.accepted (l.byteWords_stops _)) ?_)
  refine Reads.seq (l.encoded_reads address ?_) ?_
  · refine Stops.append l.tab.nonempty fun c head => ?_
    exact isSpaceChar_lower (l.tab.accepted c (List.mem_of_mem_head? head))
  refine Reads.seq (Reads.optPlus l.tab.accepted (l.prefixWords_stops _)) ?_
  have prefixes := l.prefixes_read bytes l.mnemonic.stem (l.mnemonic.suffix ++ l.rest)
  rw [← List.append_assoc l.mnemonic.stem.text] at prefixes
  refine Reads.seq prefixes (Reads.seq (Reads.group ?_) arguments)
  exact Reads.plus l.text_ne_nil l.lower l.rest_stops

theorem operandList_read {operands : Option (List Char)}
    (stripped : strip (operands.getD []) = (l.arguments.map fun a => operandsText a.operands).getD []) :
    operandList alnum operands = .ok l.operands := by
  unfold operandList parseOperands
  simp only [stripped]
  cases arguments : l.arguments with
  | none => simp [PrintedLine.operands, arguments, parseOperandsLoop]
  | some a =>
      have read := parseOperandsLoop_operandsText a.operands (Nat.le_refl _) a.last
      simp only [Option.map_some, Option.getD_some, read]
      simp [PrintedLine.operands, arguments, Written.parsed]

theorem read (vectors : l.mnemonic.isVector = textContains (String.ofList l.text) "xmm") : ∃ groups left,
    LineText.instr.first l.text = some (groups, left) ∧ newInstruction alnum l.text groups = l.instruction := by
  obtain ⟨groups, left, found, vaddr, encoded, mnemonic, stripped⟩ := l.matched
  refine ⟨groups, left, found, ?_⟩
  have some : l.text ≠ [] := by
    refine List.append_ne_nil_of_right_ne_nil _ (List.append_ne_nil_of_left_ne_nil l.address.text_ne_nil _)
  have length : (splitSpace ((groups .encoded).getD [])).length = l.bytes.length := by
    rw [encoded, Option.getD_some, l.splitSpace_byteWords, List.length_map]
  have address : (intHex ((groups .vaddr).getD [])).toNat = l.address.value := by
    rw [vaddr, Option.getD_some, l.address.intHex, Int.toNat_natCast]
  have spelled : readMnemonic (String.ofList l.text) (strip ((groups .mnemonic).getD [])) =
      .ok l.mnemonic.reading := by
    rw [mnemonic, Option.getD_some, strip_lower l.lower]
    exact l.mnemonic.readMnemonic vectors
  unfold newInstruction instruction record
  simp only [some, if_false, length, address, spelled, l.counted, dite_true]
  change (if _ then _ else _) = _
  split
  · rfl
  · rw [l.operandList_read stripped]
    rfl

theorem instruction_of_text {l : PrintedLine alnum} {i : Instruction} (text : String.ofList l.text = i.original)
    (record : l.record i.original = .ok i) : l.instruction = .ok i := by
  rw [instruction, text, record]

end Att.PrintedLine

/-! Functions and whole texts. -/

namespace Att

structure PrintedFunction (alnum : Char → Bool) where
  digits : List Char
  gap : Word isSpaceChar
  name : Word fun c => !isSpaceChar c
  body : List (PrintedLine alnum × Instruction)
  sixteen : digits.length = 16
  hex : ∀ c ∈ digits, isHexChar c = true
  nonempty : body ≠ []
  vectors : ∀ entry ∈ body, entry.1.mnemonic.isVector = textContains (String.ofList entry.1.text) "xmm"
  meant : ∀ entry ∈ body, entry.1.instruction = .ok entry.2

variable {alnum : Char → Bool}

namespace PrintedFunction

variable (f : PrintedFunction alnum)

def header : List Char := f.digits ++ (f.gap.chars ++ '<' :: (f.name.chars ++ ['>', ':']))

def lines : List (List Char) := f.header :: f.body.map fun entry => entry.1.text

def instrs : List Instruction := f.body.map Prod.snd

theorem name_reads (groups : Groups LineGroup) :
    (Pattern.seq (.group LineGroup.fname (.plus fun c => !isSpaceChar c)) (.seq (chars ['>', ':']) .stop)).Reads groups
      (f.name.chars ++ ['>', ':']) (Function.update groups .fname (some f.name.chars), []) := by
  -- The name is all up to the last `>:`.
  obtain ⟨more, left⟩ := @rests_append (fun c => !isSpaceChar c) ['>', ':'] _ f.name.nonempty f.name.accepted
  let noted (rest : List Char) : Groups LineGroup × List Char :=
    (Function.update groups .fname (some (consumed (f.name.chars ++ ['>', ':']) rest)), rest)
  have ran : (Pattern.group LineGroup.fname (.plus fun c => !isSpaceChar c)).run groups (f.name.chars ++ ['>', ':']) =
      [noted [], noted [':']] ++ noted ['>', ':'] :: more.map noted := by
    rw [run_group, run_plus, left, List.map_map]
    rfl
  have stuck : ∀ s ∈ [noted [], noted [':']],
      (Pattern.seq (chars ['>', ':']) .stop : Pattern LineGroup).Fails s.2 := by
    rintro s (_ | ⟨_, _ | ⟨_, ⟨⟩⟩⟩)
    · exact Fails.seqFirst (Fails.chars (by simp [noted]))
    · exact Fails.seqFirst (Fails.chars (by simp [noted]))
  have same : noted ['>', ':'] = (Function.update groups .fname (some f.name.chars), ['>', ':']) := by
    simp only [noted, consumed_append]
  rw [same] at ran
  have closing (groups : Groups LineGroup) : (chars ['>', ':']).Reads groups ['>', ':'] (groups, []) :=
    Reads.chars
  exact Reads.seq_later ran stuck (Reads.seq (closing _) Reads.stop)

theorem titled : IsHeader f.header f.name.chars := by
  refine ⟨Function.update (fun _ => none) .fname (some f.name.chars), [], Reads.first ?_, rfl⟩
  have digits := @Reads.times LineGroup _ (fun _ => none) (f.gap.chars ++ '<' :: (f.name.chars ++ ['>', ':']))
    isHexChar f.digits f.hex
  rw [f.sixteen] at digits
  refine Reads.seq digits (Reads.seq (Reads.plus f.gap.nonempty f.gap.accepted (Stops.cons rfl)) ?_)
  exact Reads.seq Reads.char (f.name_reads _)

def entries : List (List Char × Instruction) := f.body.map fun entry => (entry.1.text, entry.2)

theorem entries_ne_nil : f.entries ≠ [] := by simpa [entries] using f.nonempty

theorem entries_accepted : ∀ entry ∈ f.entries, ∃ groups left,
    LineText.instr.first entry.1 = some (groups, left) ∧ newInstruction alnum entry.1 groups = .ok entry.2 := by
  intro entry member
  obtain ⟨printed, inside, same⟩ := List.mem_map.mp member
  obtain ⟨groups, left, found, made⟩ := printed.1.read (f.vectors printed inside)
  rw [f.meant printed inside] at made
  rw [← same]
  exact ⟨groups, left, found, made⟩

def block : FunctionBlock (newInstruction alnum) where
  header := f.header
  fname := f.name.chars
  titled := f.titled
  body := f.entries
  nonempty := f.entries_ne_nil
  accepted := f.entries_accepted

theorem block_lines : f.block.lines = f.lines := by
  simp [FunctionBlock.lines, block, entries, lines]

theorem block_instrs : f.block.instrs = f.instrs := by
  simp [FunctionBlock.instrs, block, entries, instrs]

end PrintedFunction

/-- The output of objdump: functions, with other lines between them. -/
structure PrintedDump (alnum : Char → Bool) where
  before : List (List Char)
  functions : List (PrintedFunction alnum × List (List Char))
  noise : ∀ line ∈ before, IsNoise line
  noise' : ∀ f ∈ functions, ∀ line ∈ f.2, IsNoise line
  separated : ∀ f ∈ functions.dropLast, f.2 ≠ []

namespace PrintedDump

variable (d : PrintedDump alnum)

def text : List (List Char) := d.before ++ d.functions.flatMap fun f => f.1.lines ++ f.2

def kept (filterFunctions : Option (List (List Char))) : List (PrintedFunction alnum) :=
  (d.functions.map Prod.fst).filter fun f => passesFilter filterFunctions f.name.chars

def blocks : List (FunctionBlock (newInstruction alnum) × List (List Char)) :=
  d.functions.map fun f => (f.1.block, f.2)

theorem text_eq : d.text = d.before ++ d.blocks.flatMap fun block => block.1.lines ++ block.2 := by
  simp only [text, blocks, List.flatMap_map, PrintedFunction.block_lines]

theorem kept_eq (filterFunctions : Option (List (List Char))) :
    (d.blocks.map Prod.fst).filter (fun b => passesFilter filterFunctions b.fname) =
      (d.kept filterFunctions).map PrintedFunction.block := by
  simp only [blocks, kept, List.map_map, List.filter_map]
  rfl

theorem collected (filterFunctions : Option (List (List Char))) : ∃ s : Disassembly Instruction,
    parseObjdump (newInstruction alnum) filterFunctions d.text = .ok s.functionAsm ∧
    Collected s ((d.kept filterFunctions).map PrintedFunction.block) := by
  have empty : Collected (.initial : Disassembly Instruction) ([] : List (FunctionBlock (newInstruction alnum))) :=
    ⟨.nil, by simp [Disassembly.initial], List.nodup_nil, by simp⟩
  have before := @parseLines_outside Instruction (newInstruction alnum) filterFunctions .initial d.before rfl
    fun line member => (d.noise line member).1
  have noise : ∀ block ∈ d.blocks, ∀ line ∈ block.2, IsNoise line := by
    intro block member
    obtain ⟨f, inside, rfl⟩ := List.mem_map.mp member
    exact d.noise' f inside
  have separated : ∀ block ∈ d.blocks.dropLast, block.2 ≠ [] := by
    intro block member
    rw [blocks, ← List.map_dropLast] at member
    obtain ⟨f, inside, rfl⟩ := List.mem_map.mp member
    exact d.separated f inside
  obtain ⟨s, ran, collected⟩ := @parseLines_blocks Instruction (newInstruction alnum) filterFunctions .initial []
    d.blocks empty rfl noise separated
  rw [List.nil_append, d.kept_eq] at collected
  refine ⟨s, ?_, collected⟩
  rw [parseObjdump, d.text_eq, parseLines_append before, ran]
  rfl

end PrintedDump

end Att

theorem entries_instrs {ι : Type} {instruction : List Char → Groups LineGroup → Except Error ι}
    {asm : List (List Char × List ι)} {bs : List (FunctionBlock instruction)}
    (entries : List.Forall₂ IsEntry asm bs) : asm.map Prod.snd = bs.map FunctionBlock.instrs := by
  induction entries with
  | nil => rfl
  | cons entry _ ih => rw [List.map_cons, List.map_cons, entry.instrs, ih]

/-- A disassembly is read as what its lines stand for: the instructions of every function that passes the
filter, in their order. -/
theorem disassembly_read {alnum : Char → Bool} (filterFunctions : Option (List (List Char)))
    (d : Att.PrintedDump alnum) : ∃ asm, parseObjdump (newInstruction alnum) filterFunctions d.text = .ok asm ∧
      asm.map Prod.snd = (d.kept filterFunctions).map Att.PrintedFunction.instrs ∧
      (asm.map Prod.fst).Nodup ∧ ∀ f ∈ d.kept filterFunctions, f.name.chars ∈ asm.map Prod.fst := by
  obtain ⟨s, parsed, collected⟩ := d.collected filterFunctions
  refine ⟨s.functionAsm, parsed, ?_, collected.distinct, fun f member => ?_⟩
  · rw [entries_instrs collected.entries, List.map_map]
    exact List.map_congr_left fun f _ => f.block_instrs
  · exact hasKey_iff.mp (collected.named f.block (List.mem_map_of_mem member))

/-! A disassembly of four functions. The first one has the header of a cartridge, a cartridge of three
instructions, and padding. -/

def sampleText : List (List Char) :=
  ["0000000000400760 <f>:".toList,
    "  400760:\t4c 8d 3d 05 00 00 00 \tleaq   0x5(%rip),%r15".toList,
    "  400767:\te9 94 00 00 00 \tjmpq   400800 <sb_reopen>".toList,
    "  40076c:\t66 0f 6f c8 \tmovdqa %xmm0,%xmm1".toList,
    "  400770:\t48 01 c3 \taddq   %rax,%rbx".toList,
    "  400773:\tc3 \tretq".toList,
    "  400774:\t90 \tnop".toList,
    [],
    "0000000000400780 <g>:".toList,
    "  400780:\tf0 48 0f c1 07 \tlock xaddq %rax,(%rdi) # c".toList,
    [],
    "0000000000400790 <sb_open>:".toList,
    "  400790:\t90 \tnop".toList,
    [],
    "00000000004007a0 <sb_modeled_return>:".toList,
    "  4007a0:\t90 \tnop".toList]

def headerLoad : Instruction :=
  { original := "  400760:\t4c 8d 3d 05 00 00 00 \tleaq   0x5(%rip),%r15", vaddr := 0x400760, length := 7, op := .lea
    size1 := some .q, operands := [.mem ⟨none, 5, some (.q .rip), none, .one⟩, .reg (.q (.gpr .r15))] }

def headerJump : Instruction :=
  { original := "  400767:\te9 94 00 00 00 \tjmpq   400800 <sb_reopen>", vaddr := 0x400767, length := 5, op := .j
    size1 := some .q, operands := [.addr 0x400800 "sb_reopen"] }

def vectorMove : Instruction :=
  { original := "  40076c:\t66 0f 6f c8 \tmovdqa %xmm0,%xmm1", vaddr := 0x40076c, length := 4, op := .nop
    size1 := some .q, ignored := true }

def addRegisters : Instruction :=
  { original := "  400770:\t48 01 c3 \taddq   %rax,%rbx", vaddr := 0x400770, length := 3, op := .add
    size1 := some .q, operands := [.reg (.q (.gpr .rax)), .reg (.q (.gpr .rbx))] }

def returnQuad : Instruction :=
  { original := "  400773:\tc3 \tretq", vaddr := 0x400773, length := 1, op := .ret, size1 := some .q }

def padding : Instruction :=
  { original := "  400774:\t90 \tnop", vaddr := 0x400774, length := 1, op := .nop, size1 := some .q }

def sampleCode : List Instruction := [headerLoad, headerJump, vectorMove, addRegisters, returnQuad, padding]

def lockedAdd : Instruction :=
  { original := "  400780:\tf0 48 0f c1 07 \tlock xaddq %rax,(%rdi) # c", vaddr := 0x400780, length := 5, op := .xadd
    size1 := some .q, operands := [.reg (.q (.gpr .rax)), .mem ⟨none, 0, some (.q (.gpr .rdi)), none, .one⟩] }

theorem sample_printed : ∃ (f g sbOpen sbReturn : Att.PrintedFunction fun _ => false)
    (d : Att.PrintedDump fun _ => false), d.text = sampleText ∧ d.functions.map Prod.fst = [f, g, sbOpen, sbReturn] ∧
      [f, g, sbOpen, sbReturn].map (fun f => f.name.chars) =
        ["f".toList, "g".toList, "sb_open".toList, "sb_modeled_return".toList] ∧
      f.instrs = sampleCode ∧ g.instrs = [lockedAdd] := by
  let space : Att.Word isSpaceChar := ⟨[' '], by decide, List.all_eq_true.mp rfl⟩
  let wide : Att.Word isSpaceChar := ⟨[' ', ' ', ' '], by decide, List.all_eq_true.mp rfl⟩
  let tab : Att.Word isSpaceChar := ⟨['\t'], by decide, List.all_eq_true.mp rfl⟩
  let reg (name : Att.Name fun _ => false) : Att.Written fun _ => false := ⟨false, .reg name⟩
  let word (c₁ c₂ c₃ : Char) (accepted : [c₁, c₂, c₃].all fun c => isWordChar (fun _ => false) c && !isSpaceChar c) :
      Att.Name fun _ => false := ⟨[c₁, c₂, c₃], List.cons_ne_nil _ _, List.all_eq_true.mp accepted⟩
  let xmm (c : Char) (accepted : ['x', 'm', 'm', c].all fun c => isWordChar (fun _ => false) c && !isSpaceChar c) :
      Att.Name fun _ => false := ⟨['x', 'm', 'm', c], List.cons_ne_nil _ _, List.all_eq_true.mp accepted⟩
  let ahead : Att.Written fun _ => false :=
    ⟨false, .mem ⟨none, some ⟨⟨⟨0, 5⟩, true⟩, false⟩, some ⟨some (word 'r' 'i' 'p' rfl), none⟩, .inl rfl⟩⟩
  let target : Att.Written fun _ => false :=
    ⟨false, .addr ⟨0, 0x400800⟩ space ⟨"sb_reopen".toList, by decide, List.all_eq_true.mp rfl⟩⟩
  let slot : Att.Written fun _ => false :=
    ⟨false, .mem ⟨none, none, some ⟨some (word 'r' 'd' 'i' rfl), none⟩, .inr rfl⟩⟩
  let line (address : Nat) (bytes : List (Char × Char)) (mnemonic : Att.Mnemonic)
      (arguments : Option (Att.Arguments fun _ => false)) (counted : isLength bytes.length = true)
      (encoded : (bytes.all fun byte => isLowerChar byte.1 && isLowerChar byte.2) = true)
      (lower : mnemonic.text.all isLowerChar = true) : Att.PrintedLine fun _ => false :=
    { indent := [' ', ' '], address := ⟨0, address⟩, gap := tab, bytes := bytes, tab := tab, prefixes := []
      mnemonic := mnemonic, arguments := arguments, padding := [], comment := none
      indented := List.all_eq_true.mp rfl, counted := counted
      encoded := fun byte member => Bool.and_eq_true_iff.mp (List.all_eq_true.mp encoded byte member)
      lower := List.all_eq_true.mp lower, padded := List.forall_mem_nil _ }
  let arguments (gap : Att.Word isSpaceChar) (operands : List (Att.Written fun _ => false)) (nonempty : operands ≠ [])
      (plain : ((Att.operandsText operands).all fun c => decide (c ≠ '#')) = true)
      (last : ∀ w ∈ operands.dropLast, w.form.isAddr = false) : Option (Att.Arguments fun _ => false) :=
    some ⟨gap, operands, nonempty, fun c member => of_decide_eq_true (List.all_eq_true.mp plain c member), last⟩
  let pair (gap : Att.Word isSpaceChar) (first second : Att.Written fun _ => false)
      (plain : ((Att.operandsText [first, second]).all fun c => decide (c ≠ '#')) = true)
      (last : first.form.isAddr = false) : Option (Att.Arguments fun _ => false) :=
    arguments gap [first, second] (List.cons_ne_nil _ _) plain (List.forall_mem_singleton.mpr last)
  let loads := line 0x400760 [('4', 'c'), ('8', 'd'), ('3', 'd'), ('0', '5'), ('0', '0'), ('0', '0'), ('0', '0')]
    (.spelled (.sized .lea .q (by decide))) (pair wide ahead (reg (word 'r' '1' '5' rfl)) rfl rfl) rfl rfl rfl
  let jumps := line 0x400767 [('e', '9'), ('9', '4'), ('0', '0'), ('0', '0'), ('0', '0')]
    (.spelled (.sized .jmp .q (by decide)))
    (arguments wide [target] (List.cons_ne_nil _ _) rfl (List.forall_mem_nil _)) rfl rfl rfl
  let moves := line 0x40076c [('6', '6'), ('0', 'f'), ('6', 'f'), ('c', '8')] (.vector .movdqa [] (by decide) (by decide))
    (pair space (reg (xmm '0' rfl)) (reg (xmm '1' rfl)) rfl rfl) rfl rfl rfl
  let adds := line 0x400770 [('4', '8'), ('0', '1'), ('c', '3')] (.spelled (.sized .add .q (by decide)))
    (pair wide (reg (word 'r' 'a' 'x' rfl)) (reg (word 'r' 'b' 'x' rfl)) rfl rfl) rfl rfl rfl
  let returns := line 0x400773 [('c', '3')] (.spelled (.sized .ret .q (by decide))) none rfl rfl rfl
  let nop (address : Nat) := line address [('9', '0')] (.spelled (.implied .nop (by decide))) none rfl rfl rfl
  let locked : Att.PrintedLine fun _ => false :=
    { line 0x400780 [('f', '0'), ('4', '8'), ('0', 'f'), ('c', '1'), ('0', '7')] (.spelled (.sized .xadd .q (by decide)))
        (pair space (reg (word 'r' 'a' 'x' rfl)) slot rfl rfl) rfl rfl rfl with
      prefixes := [.lock], padding := [' '], comment := some [' ', 'c'], padded := List.all_eq_true.mp rfl }
  let f : Att.PrintedFunction fun _ => false :=
    { digits := "0000000000400760".toList, gap := space, name := ⟨['f'], by decide, List.all_eq_true.mp rfl⟩
      body := [(loads, headerLoad), (jumps, headerJump), (moves, vectorMove), (adds, addRegisters),
        (returns, returnQuad), (nop 0x400774, padding)]
      sixteen := rfl, hex := List.all_eq_true.mp rfl, nonempty := List.cons_ne_nil _ _
      vectors := by decide +kernel
      meant := by
        simp only [List.forall_mem_cons]
        refine ⟨?_, ?_, ?_, ?_, ?_, ?_, List.forall_mem_nil _⟩
        all_goals exact Att.PrintedLine.instruction_of_text (by decide +kernel) rfl }
  let g : Att.PrintedFunction fun _ => false :=
    { digits := "0000000000400780".toList, gap := space, name := ⟨['g'], by decide, List.all_eq_true.mp rfl⟩
      body := [(locked, lockedAdd)], sixteen := rfl, hex := List.all_eq_true.mp rfl
      nonempty := List.cons_ne_nil _ _, vectors := by decide +kernel
      meant := List.forall_mem_singleton.mpr (Att.PrintedLine.instruction_of_text (by decide +kernel) rfl) }
  let routine (digits : List Char) (name : Att.Word fun c => !isSpaceChar c) (address : Nat)
      (sixteen : digits.length = 16) (hex : digits.all isHexChar = true)
      (plain : textContains (String.ofList (nop address).text) "xmm" = false) : Att.PrintedFunction fun _ => false :=
    { digits := digits, gap := space, name := name
      body := [(nop address, { padding with original := String.ofList (nop address).text, vaddr := address })]
      sixteen := sixteen, hex := List.all_eq_true.mp hex, nonempty := List.cons_ne_nil _ _
      vectors := List.forall_mem_singleton.mpr plain.symm, meant := List.forall_mem_singleton.mpr rfl }
  let sbOpen := routine "0000000000400790".toList ⟨"sb_open".toList, by decide, List.all_eq_true.mp rfl⟩ 0x400790 rfl rfl
    (by decide)
  let sbReturn := routine "00000000004007a0".toList ⟨"sb_modeled_return".toList, by decide, List.all_eq_true.mp rfl⟩
    0x4007a0 rfl rfl (by decide)
  let quiet : IsNoise [] := ⟨rfl, rfl⟩
  let d : Att.PrintedDump fun _ => false :=
    { before := [], functions := [(f, [[]]), (g, [[]]), (sbOpen, [[]]), (sbReturn, [])]
      noise := List.forall_mem_nil _, noise' := by simp [quiet], separated := by simp }
  refine ⟨f, g, sbOpen, sbReturn, d, ?_, rfl, rfl, rfl, rfl⟩
  decide +kernel

theorem disassembly_read_sample : ∃ asm,
    parseObjdump (newInstruction fun _ => false) (some ["f".toList, "g".toList]) sampleText = .ok asm ∧
      asm.map Prod.snd = [sampleCode, [lockedAdd]] ∧ (asm.map Prod.fst).Nodup ∧
      "f".toList ∈ asm.map Prod.fst ∧ "g".toList ∈ asm.map Prod.fst := by
  obtain ⟨f, g, sbOpen, sbReturn, d, text, functions, names, code, locked⟩ := sample_printed
  simp only [List.map_cons, List.map_nil, List.cons.injEq, and_true] at names
  have kept : d.kept (some ["f".toList, "g".toList]) = [f, g] := by
    simp only [Att.PrintedDump.kept, functions, List.filter_cons, names]
    rfl
  obtain ⟨asm, parsed, instrs, distinct, named⟩ := disassembly_read (some ["f".toList, "g".toList]) d
  rw [kept] at instrs named
  rw [text] at parsed
  refine ⟨asm, parsed, ?_, distinct, names.1 ▸ named f (by simp), names.2.1 ▸ named g (by simp)⟩
  rw [instrs, List.map_cons, List.map_cons, code, locked]
  rfl

end Tase
