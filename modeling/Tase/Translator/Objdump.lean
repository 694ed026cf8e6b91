import Tase.Text.Reading
import Tase.Translator.Parse

/-! The functions of a disassembly, as `ELFFile._parse_objdump` collects them. -/

namespace Tase

open Regex Pattern

inductive LineGroup
  | fname | vaddr | encoded | prefixes | mnemonic | operands
deriving DecidableEq

def isLowerChar (c : Char) : Bool := c.isDigit || ('a' ≤ c && c ≤ 'z')

namespace LineText

def functionHeader : Pattern LineGroup :=
  -- `[0-9a-f]{16}\s+<(\S+)>:$`.
  .seq (times (.one isHexChar) 16) (.seq (.plus isSpaceChar) (.seq (char '<')
    (.seq (.group .fname (.plus fun c => !isSpaceChar c)) (.seq (chars ['>', ':']) .stop))))

def encodedByte : Pattern LineGroup :=
  -- `[0-9a-z]{2}\s`.
  .seq (times (.one isLowerChar) 2) (.one isSpaceChar)

def prefixWord : Pattern LineGroup :=
  -- `(lock|data16|data32|code16|code32|rep|repe|repne|repz|repnz) `.
  .seq (.alt (chars "lock".toList) (.alt (chars "data16".toList) (.alt (chars "data32".toList)
    (.alt (chars "code16".toList) (.alt (chars "code32".toList) (.alt (chars "rep".toList)
    (.alt (chars "repe".toList) (.alt (chars "repne".toList) (.alt (chars "repz".toList)
    (chars "repnz".toList)))))))))) (char ' ')

def instr : Pattern LineGroup :=
  -- `_regex_instr`.
  .seq (.opt (.plus isSpaceChar)) (.seq (.group .vaddr (.plus isHexChar)) (.seq (char ':')
    (.seq (.plus isSpaceChar) (.seq (.group .encoded (.seq encodedByte (.star encodedByte)))
    (.seq (.opt (.plus isSpaceChar)) (.seq (.group .prefixes (.star prefixWord))
    (.seq (.group .mnemonic (.plus isLowerChar))
    (.opt (.seq (.plus isSpaceChar) (.group .operands (.plus fun c => c ≠ '#')))))))))))

end LineText

def duplicateName (fname : List Char) (dupnameCtr : Nat) : List Char :=
  -- `'%s duplicate %d' % (fname, dupname_ctr)`.
  fname ++ " duplicate ".toList ++ Nat.toDigits 10 dupnameCtr

section

variable {ι : Type}

/-- The state of the loop: the dictionary in the order of its insertions, the key of the list to which
`current_function` refers, and the counter. -/
structure Disassembly (ι : Type) where
  functionAsm : List (List Char × List ι)
  currentFunction : Option (List Char)
  dupnameCtr : Nat

def Disassembly.initial : Disassembly ι := ⟨[], none, 0⟩

def hasKey (key : List Char) (d : List (List Char × List ι)) : Bool := d.any fun entry => entry.1 = key

def assign (key : List Char) (value : List ι) (d : List (List Char × List ι)) : List (List Char × List ι) :=
  -- `d[key] = value`.
  if hasKey key d then d.map fun entry => if entry.1 = key then (key, value) else entry else d ++ [(key, value)]

def appendAt (key : List Char) (x : ι) (d : List (List Char × List ι)) : List (List Char × List ι) :=
  -- `d[key].append(x)`.
  d.map fun entry => if entry.1 = key then (key, entry.2 ++ [x]) else entry

def passesFilter (filterFunctions : Option (List (List Char))) (fname : List Char) : Bool :=
  -- `filter_functions is None or any(fname == f for f in filter_functions)`.
  match filterFunctions with
  | none => true
  | some names => names.any fun f => fname = f

def parseLine (instruction : List Char → Groups LineGroup → Except Error ι)
    (filterFunctions : Option (List (List Char))) (s : Disassembly ι) (line : List Char) :
    Except Error (Disassembly ι) :=
  match s.currentFunction with
  | none =>
      match LineText.functionHeader.first line with
      | none => .ok s
      | some (groups, _) =>
          let fname := (groups .fname).getD []
          if passesFilter filterFunctions fname then
            if hasKey fname s.functionAsm then
              let key := duplicateName fname s.dupnameCtr
              .ok ⟨assign key [] s.functionAsm, some key, s.dupnameCtr + 1⟩
            else .ok ⟨assign fname [] s.functionAsm, some fname, s.dupnameCtr⟩
          else .ok s
  | some key =>
      match LineText.instr.first line with
      | some (groups, _) => do
          let instr ← instruction line groups
          .ok { s with functionAsm := appendAt key instr s.functionAsm }
      | none => .ok { s with currentFunction := none }

def parseLines (instruction : List Char → Groups LineGroup → Except Error ι)
    (filterFunctions : Option (List (List Char))) (s : Disassembly ι) (text : List (List Char)) :
    Except Error (Disassembly ι) :=
  text.foldlM (parseLine instruction filterFunctions) s

def parseObjdump (instruction : List Char → Groups LineGroup → Except Error ι)
    (filterFunctions : Option (List (List Char))) (text : List (List Char)) :
    Except Error (List (List Char × List ι)) :=
  (parseLines instruction filterFunctions .initial text).map Disassembly.functionAsm

end

/-! Lines. -/

def IsHeader (line fname : List Char) : Prop :=
  ∃ groups left, LineText.functionHeader.first line = some (groups, left) ∧ groups .fname = some fname

theorem functionHeader_inv {line : List Char} {r : Groups LineGroup × List Char}
    (found : LineText.functionHeader.first line = some r) :
    ∃ digits space rest, line = digits ++ space :: rest ∧ (∀ c ∈ digits, isHexChar c = true) ∧ digits ≠ [] ∧
      isSpaceChar space = true ∧ ∃ fname, r.1 .fname = some fname ∧ ∀ c ∈ fname, isSpaceChar c = false := by
  obtain ⟨a, sixteen, found⟩ := List.mem_flatMap.mp (List.mem_of_mem_head? found)
  obtain ⟨b, gap, found⟩ := List.mem_flatMap.mp found
  obtain ⟨c, bracket, found⟩ := List.mem_flatMap.mp found
  obtain ⟨d, title, closing⟩ := List.mem_flatMap.mp found
  obtain ⟨digits, whole, length, hex⟩ := run_times sixteen
  obtain ⟨left, spaces, rfl⟩ := List.mem_map.mp gap
  obtain ⟨word, gapText, nonempty, space⟩ := rests_word spaces
  obtain ⟨first, more, rfl⟩ := List.exists_cons_of_ne_nil nonempty
  obtain ⟨e, inside, rfl⟩ := List.mem_map.mp title
  obtain ⟨left', run, rfl⟩ := List.mem_map.mp inside
  obtain ⟨fname, nameText, _, plain⟩ := rests_word run
  refine ⟨digits, first, more ++ left, ?_, hex, ?_, space first List.mem_cons_self, fname, ?_, ?_⟩
  · rw [whole, gapText, List.cons_append]
  · intro empty
    rw [empty] at length
    cases length
  · rw [run_groupless rfl closing]
    change Function.update c.1 LineGroup.fname (some (consumed c.2 left')) LineGroup.fname = _
    rw [Function.update_self, nameText, consumed_append]
  · intro c member
    simpa using plain c member

theorem isHexChar_space_apart {c : Char} (space : isSpaceChar c = true) : isHexChar c = false := by
  by_contra hex
  rw [isHexChar_space (Bool.not_eq_false _ ▸ hex)] at space
  cases space

theorem functionHeader_not_instr {line : List Char} {r : Groups LineGroup × List Char}
    (found : LineText.functionHeader.first line = some r) : LineText.instr.first line = none := by
  obtain ⟨digits, space, rest, rfl, hex, nonempty, gap, _⟩ := functionHeader_inv found
  refine Fails.first (Fails.optSeq (Fails.plus ?_) (Fails.wordSeq hex ?_ ?_ ?_))
  · obtain ⟨c, more, rfl⟩ := List.exists_cons_of_ne_nil nonempty
    exact Stops.cons (isHexChar_space (hex c List.mem_cons_self))
  · exact Stops.cons (isHexChar_space_apart gap)
  · refine Fails.seqFirst (Fails.char fun head => ?_)
    rw [Option.some.inj head] at gap
    cases gap
  · rintro left ⟨c, head, digit⟩
    refine Fails.seqFirst (Fails.char fun head' => ?_)
    rw [Option.some.inj (head.symm.trans head')] at digit
    cases digit

def IsNoise (line : List Char) : Prop :=
  LineText.functionHeader.first line = none ∧ LineText.instr.first line = none

section

variable {ι : Type} {instruction : List Char → Groups LineGroup → Except Error ι}

structure FunctionBlock (instruction : List Char → Groups LineGroup → Except Error ι) where
  header : List Char
  fname : List Char
  titled : IsHeader header fname
  body : List (List Char × ι)
  nonempty : body ≠ []
  accepted : ∀ entry ∈ body, ∃ groups left, LineText.instr.first entry.1 = some (groups, left) ∧
    instruction entry.1 groups = .ok entry.2

def FunctionBlock.lines (b : FunctionBlock instruction) : List (List Char) := b.header :: b.body.map Prod.fst

def FunctionBlock.instrs (b : FunctionBlock instruction) : List ι := b.body.map Prod.snd

structure Dump (instruction : List Char → Groups LineGroup → Except Error ι) where
  before : List (List Char)
  blocks : List (FunctionBlock instruction × List (List Char))
  noise : ∀ line ∈ before, IsNoise line
  noise' : ∀ block ∈ blocks, ∀ line ∈ block.2, IsNoise line
  separated : ∀ block ∈ blocks.dropLast, block.2 ≠ []

def Dump.text (d : Dump instruction) : List (List Char) :=
  d.before ++ d.blocks.flatMap fun block => block.1.lines ++ block.2

def Dump.kept (filterFunctions : Option (List (List Char))) (d : Dump instruction) :
    List (FunctionBlock instruction) :=
  (d.blocks.map Prod.fst).filter fun b => passesFilter filterFunctions b.fname

variable {filterFunctions : Option (List (List Char))} {s : Disassembly ι} {lines : List (List Char)}

/-! What each kind of line does. -/

theorem parseLines_append {s' : Disassembly ι} {more : List (List Char)}
    (first : parseLines instruction filterFunctions s lines = .ok s') :
    parseLines instruction filterFunctions s (lines ++ more) = parseLines instruction filterFunctions s' more := by
  unfold parseLines at first ⊢
  rw [List.foldlM_append, first]
  rfl

theorem parseLines_outside (outside : s.currentFunction = none)
    (plain : ∀ line ∈ lines, LineText.functionHeader.first line = none) :
    parseLines instruction filterFunctions s lines = .ok s := by
  induction lines with
  | nil => rfl
  | cons line lines ih =>
      have one : parseLine instruction filterFunctions s line = .ok s := by
        simp only [parseLine, outside, plain line List.mem_cons_self]
      have rest := ih fun line member => plain line (List.mem_cons_of_mem _ member)
      unfold parseLines at rest ⊢
      rw [List.foldlM_cons, one]
      exact rest

theorem parseLines_closing {key : List Char} (inside : s.currentFunction = some key) (some : lines ≠ [])
    (noise : ∀ line ∈ lines, IsNoise line) :
    parseLines instruction filterFunctions s lines = .ok { s with currentFunction := none } := by
  obtain ⟨line, more, rfl⟩ := List.exists_cons_of_ne_nil some
  have one : parseLine instruction filterFunctions s line = .ok { s with currentFunction := none } := by
    simp only [parseLine, inside, (noise line List.mem_cons_self).2]
  have rest := @parseLines_outside ι instruction filterFunctions { s with currentFunction := none } more rfl
    fun line member => (noise line (List.mem_cons_of_mem _ member)).1
  unfold parseLines at rest ⊢
  rw [List.foldlM_cons, one]
  exact rest

theorem hasKey_iff {key : List Char} {d : List (List Char × List ι)} :
    hasKey key d = true ↔ key ∈ d.map Prod.fst := by
  simp [hasKey]

theorem assign_new {key : List Char} {value : List ι} {d : List (List Char × List ι)} (new : hasKey key d = false) :
    assign key value d = d ++ [(key, value)] := by
  rw [assign, new, if_neg Bool.false_ne_true]

theorem appendAt_last {key : List Char} {x : ι} {value : List ι} {d : List (List Char × List ι)}
    (new : hasKey key d = false) : appendAt key x (d ++ [(key, value)]) = d ++ [(key, value ++ [x])] := by
  have others : d.map (fun entry => if entry.1 = key then (key, entry.2 ++ [x]) else entry) = d := by
    refine (List.map_congr_left fun entry member => ?_).trans (List.map_id d)
    refine if_neg fun same => ?_
    have found : hasKey key d = true := hasKey_iff.mpr (List.mem_map.mpr ⟨entry, member, same⟩)
    rw [new] at found
    cases found
  rw [appendAt, List.map_append, others]
  simp

theorem parseLines_body {key : List Char} {value : List ι} {d : List (List Char × List ι)} {ctr : Nat}
    {body : List (List Char × ι)} (new : hasKey key d = false)
    (accepted : ∀ entry ∈ body, ∃ groups left, LineText.instr.first entry.1 = some (groups, left) ∧
      instruction entry.1 groups = .ok entry.2) :
    parseLines instruction filterFunctions ⟨d ++ [(key, value)], some key, ctr⟩ (body.map Prod.fst) =
      .ok ⟨d ++ [(key, value ++ body.map Prod.snd)], some key, ctr⟩ := by
  induction body generalizing value with
  | nil =>
      rw [List.map_nil, List.map_nil, List.append_nil]
      rfl
  | cons entry body ih =>
      obtain ⟨groups, left, matched, made⟩ := accepted entry List.mem_cons_self
      have one : parseLine instruction filterFunctions ⟨d ++ [(key, value)], some key, ctr⟩ entry.1 =
          .ok ⟨d ++ [(key, value ++ [entry.2])], some key, ctr⟩ := by
        simp only [parseLine, matched, made]
        change Except.ok (⟨appendAt key entry.2 (d ++ [(key, value)]), some key, ctr⟩ : Disassembly ι) = _
        rw [appendAt_last new]
      have rest := @ih (value ++ [entry.2]) fun e member => accepted e (List.mem_cons_of_mem _ member)
      unfold parseLines at rest ⊢
      rw [List.map_cons, List.foldlM_cons, one]
      refine rest.trans ?_
      simp

/-! The keys. -/

theorem duplicateName_inj {f f' : List Char} {n n' : Nat} (plain : ∀ c ∈ f, isSpaceChar c = false)
    (plain' : ∀ c ∈ f', isSpaceChar c = false) (same : duplicateName f n = duplicateName f' n') : n = n' := by
  have behind (g : List Char) (m : Nat) (spaceless : ∀ c ∈ g, isSpaceChar c = false) :
      (duplicateName g m).dropWhile (fun c => !isSpaceChar c) = " duplicate ".toList ++ Nat.toDigits 10 m := by
    rw [duplicateName, List.append_assoc, List.dropWhile_append_of_pos (by simpa using spaceless)]
    rfl
  have digits := congrArg (List.dropWhile fun c => !isSpaceChar c) same
  rw [behind f n plain, behind f' n' plain'] at digits
  have values := congrArg (fun ds => Nat.ofDigitChars 10 ds 0) (List.append_cancel_left digits)
  simpa using values

/-- The keys that have been made so far: names, and duplicates with an earlier number. -/
def IsKey (ctr : Nat) (key : List Char) : Prop :=
  (∀ c ∈ key, isSpaceChar c = false) ∨
    ∃ fname n, key = duplicateName fname n ∧ n < ctr ∧ ∀ c ∈ fname, isSpaceChar c = false

theorem IsKey.mono {ctr ctr' : Nat} {key : List Char} (made : IsKey ctr key) (later : ctr ≤ ctr') :
    IsKey ctr' key := by
  rcases made with plain | ⟨fname, n, rfl, early, plain⟩
  · exact .inl plain
  · exact .inr ⟨fname, n, rfl, by omega, plain⟩

theorem not_isKey_duplicateName {fname : List Char} {ctr : Nat} (plain : ∀ c ∈ fname, isSpaceChar c = false) :
    ¬ IsKey ctr (duplicateName fname ctr) := by
  rintro (spaceless | ⟨fname', n, same, early, plain'⟩)
  · have space := spaceless ' ' (by simp [duplicateName])
    cases space
  · rw [duplicateName_inj plain plain' same] at early
    exact Nat.lt_irrefl n early

theorem IsHeader.spaceless {line fname : List Char} (header : IsHeader line fname) :
    ∀ c ∈ fname, isSpaceChar c = false := by
  obtain ⟨groups, left, found, named⟩ := header
  obtain ⟨_, _, _, _, _, _, _, fname', named', plain⟩ := functionHeader_inv found
  cases named.symm.trans named'
  exact plain

structure IsEntry (entry : List Char × List ι) (b : FunctionBlock instruction) : Prop where
  key : entry.1 = b.fname ∨ ∃ n, entry.1 = duplicateName b.fname n
  instrs : entry.2 = b.instrs

structure Collected (s : Disassembly ι) (bs : List (FunctionBlock instruction)) : Prop where
  entries : List.Forall₂ IsEntry s.functionAsm bs
  keys : ∀ key ∈ s.functionAsm.map Prod.fst, IsKey s.dupnameCtr key
  distinct : (s.functionAsm.map Prod.fst).Nodup
  named : ∀ b ∈ bs, hasKey b.fname s.functionAsm = true

theorem Collected.add {bs : List (FunctionBlock instruction)} {b : FunctionBlock instruction} {key : List Char}
    {ctr : Nat} (collected : Collected s bs) (new : hasKey key s.functionAsm = false) (made : IsKey ctr key)
    (later : s.dupnameCtr ≤ ctr) (named : key = b.fname ∨ ∃ n, key = duplicateName b.fname n)
    (known : hasKey b.fname (s.functionAsm ++ [(key, b.instrs)]) = true) :
    Collected (⟨s.functionAsm ++ [(key, b.instrs)], some key, ctr⟩ : Disassembly ι) (bs ++ [b]) := by
  refine ⟨?_, ?_, ?_, ?_⟩
  · exact List.rel_append collected.entries (.cons ⟨named, rfl⟩ .nil)
  · intro k member
    rw [List.map_append, List.mem_append] at member
    rcases member with old | last
    · exact (collected.keys k old).mono later
    · rw [List.mem_singleton.mp last]
      exact made
  · rw [List.map_append, List.nodup_append]
    refine ⟨collected.distinct, List.nodup_singleton _, ?_⟩
    rintro k old k' last rfl
    rw [List.mem_singleton.mp last] at old
    rw [hasKey_iff.mpr old] at new
    cases new
  · intro b' member
    rcases List.mem_append.mp member with old | last
    · have found := hasKey_iff.mp (collected.named b' old)
      refine hasKey_iff.mpr ?_
      rw [List.map_append]
      exact List.mem_append_left _ found
    · rw [List.mem_singleton.mp last]
      exact known

/-! Whole texts. -/

theorem parseLines_skipped {b : FunctionBlock instruction} (outside : s.currentFunction = none)
    (filtered : passesFilter filterFunctions b.fname = false) :
    parseLines instruction filterFunctions s b.lines = .ok s := by
  obtain ⟨groups, left, found, named⟩ := b.titled
  have header : parseLine instruction filterFunctions s b.header = .ok s := by
    simp only [parseLine, outside, found, named, Option.getD_some, filtered, if_neg Bool.false_ne_true]
  have body : parseLines instruction filterFunctions s (b.body.map Prod.fst) = .ok s := by
    refine parseLines_outside outside fun line member => ?_
    obtain ⟨entry, inside, rfl⟩ := List.mem_map.mp member
    obtain ⟨groups, left, matched, _⟩ := b.accepted entry inside
    cases header : LineText.functionHeader.first entry.1 with
    | none => rfl
    | some r =>
        rw [functionHeader_not_instr header] at matched
        cases matched
  unfold FunctionBlock.lines parseLines at *
  rw [List.foldlM_cons, header]
  exact body

theorem parseLines_taken {bs : List (FunctionBlock instruction)} {b : FunctionBlock instruction}
    (collected : Collected s bs) (outside : s.currentFunction = none)
    (passes : passesFilter filterFunctions b.fname = true) :
    ∃ s' key, parseLines instruction filterFunctions s b.lines = .ok s' ∧ s'.currentFunction = some key ∧
      Collected s' (bs ++ [b]) := by
  have plain := b.titled.spaceless
  obtain ⟨groups, left, found, named⟩ := b.titled
  -- whatever key is chosen, the rest of the block goes there
  have filled {key : List Char} {ctr : Nat} (new : hasKey key s.functionAsm = false)
      (opened : parseLine instruction filterFunctions s b.header =
        .ok ⟨assign key [] s.functionAsm, some key, ctr⟩) :
      parseLines instruction filterFunctions s b.lines =
        .ok ⟨s.functionAsm ++ [(key, b.instrs)], some key, ctr⟩ := by
    have body := @parseLines_body ι instruction filterFunctions key [] s.functionAsm ctr b.body new b.accepted
    rw [assign_new new] at opened
    unfold FunctionBlock.lines parseLines at *
    rw [List.foldlM_cons, opened]
    exact body
  by_cases repeated : hasKey b.fname s.functionAsm = true
  · have new : hasKey (duplicateName b.fname s.dupnameCtr) s.functionAsm = false := by
      rw [← Bool.not_eq_true, hasKey_iff]
      exact fun old => not_isKey_duplicateName plain (collected.keys _ old)
    have opened : parseLine instruction filterFunctions s b.header =
        .ok ⟨assign (duplicateName b.fname s.dupnameCtr) [] s.functionAsm,
          some (duplicateName b.fname s.dupnameCtr), s.dupnameCtr + 1⟩ := by
      simp only [parseLine, outside, found, named, Option.getD_some, passes, repeated, if_true]
    refine ⟨_, _, filled new opened, rfl, ?_⟩
    refine collected.add new (.inr ⟨b.fname, s.dupnameCtr, rfl, Nat.lt_succ_self _, plain⟩) (Nat.le_succ _)
      (.inr ⟨s.dupnameCtr, rfl⟩) (hasKey_iff.mpr ?_)
    rw [List.map_append]
    exact List.mem_append_left _ (hasKey_iff.mp repeated)
  · have new : hasKey b.fname s.functionAsm = false := Bool.not_eq_true _ ▸ repeated
    have opened : parseLine instruction filterFunctions s b.header =
        .ok ⟨assign b.fname [] s.functionAsm, some b.fname, s.dupnameCtr⟩ := by
      simp only [parseLine, outside, found, named, Option.getD_some, passes, new, if_true,
        if_neg Bool.false_ne_true]
    refine ⟨_, _, filled new opened, rfl, ?_⟩
    refine collected.add new (.inl plain) (Nat.le_refl _) (.inl rfl) (hasKey_iff.mpr ?_)
    rw [List.map_append]
    exact List.mem_append_right _ (List.mem_singleton_self _)

theorem parseLines_blocks {bs : List (FunctionBlock instruction)}
    {blocks : List (FunctionBlock instruction × List (List Char))} (collected : Collected s bs)
    (outside : s.currentFunction = none) (noise : ∀ block ∈ blocks, ∀ line ∈ block.2, IsNoise line)
    (separated : ∀ block ∈ blocks.dropLast, block.2 ≠ []) :
    ∃ s', parseLines instruction filterFunctions s (blocks.flatMap fun block => block.1.lines ++ block.2) = .ok s' ∧
      Collected s' (bs ++ (blocks.map Prod.fst).filter fun b => passesFilter filterFunctions b.fname) := by
  induction blocks generalizing s bs with
  | nil => exact ⟨s, rfl, by simpa using collected⟩
  | cons block more ih =>
      obtain ⟨b, behind⟩ := block
      have quiet : ∀ line ∈ behind, IsNoise line := noise (b, behind) List.mem_cons_self
      have noise' : ∀ block ∈ more, ∀ line ∈ block.2, IsNoise line := fun block member =>
        noise block (List.mem_cons_of_mem _ member)
      have separated' : ∀ block ∈ more.dropLast, block.2 ≠ [] := by
        intro block member
        cases more with
        | nil => cases member
        | cons next rest => exact separated block (by simp [member])
      rw [List.flatMap_cons, List.append_assoc]
      by_cases passes : passesFilter filterFunctions b.fname = true
      · obtain ⟨s₁, key, taken, inside, collected₁⟩ := parseLines_taken collected outside passes
        rw [parseLines_append taken]
        have kept : (((b, behind) :: more).map Prod.fst).filter (fun b => passesFilter filterFunctions b.fname) =
            b :: (more.map Prod.fst).filter fun b => passesFilter filterFunctions b.fname := by
          simp [passes]
        by_cases last : behind = []
        · -- only the last block may run into the end of the text
          have alone : more = [] := by
            cases more with
            | nil => rfl
            | cons next rest => exact absurd last (separated (b, behind) (by simp))
          rw [last, alone]
          exact ⟨s₁, rfl, by simpa [passes] using collected₁⟩
        · rw [parseLines_append (parseLines_closing inside last quiet), kept]
          have closed : Collected ({ s₁ with currentFunction := none } : Disassembly ι) (bs ++ [b]) :=
            ⟨collected₁.entries, collected₁.keys, collected₁.distinct, collected₁.named⟩
          obtain ⟨s', ran, collected'⟩ := ih closed rfl noise' separated'
          refine ⟨s', ran, ?_⟩
          rwa [List.append_assoc] at collected'
      · have filtered : passesFilter filterFunctions b.fname = false := Bool.not_eq_true _ ▸ passes
        rw [parseLines_append (parseLines_skipped outside filtered),
          parseLines_append (parseLines_outside outside fun line member => (quiet line member).1)]
        obtain ⟨s', ran, collected'⟩ := ih collected outside noise' separated'
        exact ⟨s', ran, by simpa [filtered] using collected'⟩

end

/-- Grouping loses nothing: one entry for each block that passes the filter, under keys that are all different. -/
theorem parseObjdump_blocks {ι : Type} {instruction : List Char → Groups LineGroup → Except Error ι}
    (filterFunctions : Option (List (List Char))) (dump : Dump instruction) :
    ∃ d, parseObjdump instruction filterFunctions dump.text = .ok d ∧
      List.Forall₂ IsEntry d (dump.kept filterFunctions) ∧ (d.map Prod.fst).Nodup ∧
      ∀ b ∈ dump.kept filterFunctions, b.fname ∈ d.map Prod.fst := by
  have empty : Collected (.initial : Disassembly ι) ([] : List (FunctionBlock instruction)) :=
    ⟨.nil, fun key member => (by cases member), List.nodup_nil, fun b member => (by cases member)⟩
  have before := @parseLines_outside ι instruction filterFunctions .initial dump.before rfl
    fun line member => (dump.noise line member).1
  obtain ⟨s, ran, collected⟩ := @parseLines_blocks ι instruction filterFunctions .initial [] dump.blocks empty rfl
    dump.noise' dump.separated
  rw [List.nil_append] at collected
  refine ⟨s.functionAsm, ?_, collected.entries, collected.distinct, fun b member => ?_⟩
  · rw [parseObjdump, Dump.text, parseLines_append before, ran]
    rfl
  · exact hasKey_iff.mp (collected.named b member)

theorem parseObjdump_blocks_twice :
    ∃ d, parseObjdump (fun _ groups => .ok (groups .mnemonic)) none
        ["0000000000400760 <f>:".toList, "  400760:\tc3 \tretq".toList, [],
          "0000000000400770 <f>:".toList, "  400770:\tc3 \tretq".toList] = .ok d ∧
      d.map Prod.snd = [[some "retq".toList], [some "retq".toList]] ∧ (d.map Prod.fst).Nodup := by
  let first : FunctionBlock fun _ groups => .ok (groups .mnemonic) :=
    { header := "0000000000400760 <f>:".toList
      fname := ['f']
      titled := ⟨_, _, rfl, rfl⟩
      body := [("  400760:\tc3 \tretq".toList, some "retq".toList)]
      nonempty := List.cons_ne_nil _ _
      accepted := List.forall_mem_singleton.mpr ⟨_, _, rfl, rfl⟩ }
  let second : FunctionBlock fun _ groups => .ok (groups .mnemonic) :=
    { first with
      header := "0000000000400770 <f>:".toList
      titled := ⟨_, _, rfl, rfl⟩
      body := [("  400770:\tc3 \tretq".toList, some "retq".toList)]
      nonempty := List.cons_ne_nil _ _
      accepted := List.forall_mem_singleton.mpr ⟨_, _, rfl, rfl⟩ }
  let dump : Dump fun _ groups => .ok (groups .mnemonic) :=
    { before := []
      blocks := [(first, [[]]), (second, [])]
      noise := fun line member => by cases member
      noise' := by
        rintro block (_ | ⟨_, _ | ⟨_, ⟨⟩⟩⟩) line (_ | ⟨_, ⟨⟩⟩)
        exact ⟨rfl, rfl⟩
      separated := by
        rintro block (_ | ⟨_, ⟨⟩⟩)
        exact List.cons_ne_nil _ _ }
  obtain ⟨d, parsed, entries, distinct, _⟩ := parseObjdump_blocks none dump
  refine ⟨d, parsed, ?_, distinct⟩
  cases entries with
  | cons entry rest =>
      cases rest with
      | cons entry' rest =>
          cases rest
          rw [List.map_cons, List.map_cons, List.map_nil, entry.instrs, entry'.instrs]
          rfl

end Tase
