import Mathlib.Data.List.DropRight
import Tase.Translator.OperandGrammar

/-! Lists of operands, as `Instruction._parse_operands` takes them apart. -/

namespace Tase

open Regex Pattern

def strip (text : List Char) : List Char :=
  -- `str.strip`.
  (text.dropWhile isSpaceChar).rdropWhile isSpaceChar

def nextOperands (rounds : List Char → Option (Except Error (List ParsedOperand))) (p : ParsedOperand) :
    List Char → Option (Except Error (List ParsedOperand))
  | [] => some (.ok [p])
  | ',' :: rest => (rounds rest).map (Except.map (p :: ·))
  | _ :: _ => some (.error (.assertion "Could not parse operand string"))

theorem nextOperands_stuck {rounds : List Char → Option (Except Error (List ParsedOperand))} {p : ParsedOperand}
    {c : Char} {rest : List Char} (other : c ≠ ',') :
    nextOperands rounds p (c :: rest) = some (.error (.assertion "Could not parse operand string")) := by
  unfold nextOperands
  split
  · rename_i empty
    cases empty
  · rename_i same
    exact absurd (List.cons.inj same).1 other
  · rfl

/-- The loop of `_parse_operands`, for as many rounds as there is fuel. -/
def parseOperandsLoop (alnum : Char → Bool) : Nat → List Char → Option (Except Error (List ParsedOperand))
  | _, [] => some (.ok [])
  | 0, _ :: _ => none
  | fuel + 1, c :: tail =>
      match parseOperand alnum (c :: tail) with
      | .error e => some (.error e)
      | .ok p => nextOperands (parseOperandsLoop alnum fuel) p ((c :: tail).drop p.text.length)

/-- `none` would be a loop that has not ended after a round for each character. -/
def parseOperands (alnum : Char → Bool) (operandStr : Option (List Char)) :
    Option (Except Error (List ParsedOperand)) :=
  let text := strip (operandStr.getD [])
  parseOperandsLoop alnum text.length text

def joined (texts : List (List Char)) : List Char := List.intercalate [','] texts

theorem joined_singleton (text : List Char) : joined [text] = text := List.intercalate_singleton

theorem joined_cons {text : List Char} {more : List (List Char)} (nonempty : more ≠ []) :
    joined (text :: more) = text ++ ',' :: joined more := by
  rw [joined, List.intercalate_cons_of_ne_nil nonempty, List.append_assoc]
  rfl

/-! An accepted operand has a text. -/

theorem groupsOperand_none : groupsOperand (fun _ => none) = none := rfl

theorem operand_shorter {alnum : Char → Bool} {text : List Char} {r : Groups OperandGroup × List Char}
    (found : r ∈ (OperandText.operand alnum).run (fun _ => none) text) :
    r.1 = (fun _ => none) ∨ r.2.length < text.length := by
  rcases List.mem_append.mp found with register | found
  · exact .inr (run_shorter rfl register)
  rcases List.mem_append.mp found with address | found
  · exact .inr (run_shorter rfl address)
  rcases List.mem_append.mp found with immediate | memory
  · exact .inr (run_shorter rfl immediate)
  obtain ⟨s, segment, memory⟩ := List.mem_flatMap.mp memory
  obtain ⟨d, displacement, registers⟩ := List.mem_flatMap.mp memory
  have shrinks := (run_suffix displacement).length_le
  have shrinks' := (run_suffix registers).length_le
  rcases run_opt_cases rfl segment with rfl | shorter
  · rcases run_opt_cases rfl displacement with rfl | shorter
    · rcases run_opt_cases rfl registers with rfl | shorter
      · exact .inl rfl
      · exact .inr shorter
    · exact .inr (Nat.lt_of_le_of_lt shrinks' shorter)
  · exact .inr (Nat.lt_of_le_of_lt (Nat.le_trans shrinks' shrinks) shorter)

section

variable {alnum : Char → Bool} {text : List Char}

theorem parseOperand_text_ne_nil {p : ParsedOperand} (parsed : parseOperand alnum text = .ok p) : p.text ≠ [] := by
  unfold parseOperand at parsed
  split at parsed
  · cases parsed
  · simp only at parsed
    split at parsed
    · cases parsed
    · rename_i groups left found
      split at parsed
      · rename_i operand accepted
        cases parsed
        rcases operand_shorter (List.mem_of_mem_head? found) with nothing | shorter
        · change groups = _ at nothing
          rw [nothing, groupsOperand_none] at accepted
          cases accepted
        · have matched : (consumed (splitStar text).2 left ++ left).length = (splitStar text).2.length :=
            congrArg List.length (first_consumed found)
          rw [List.length_append] at matched
          have some : (consumed (splitStar text).2 left).length ≠ 0 := by
            change left.length < _ at shorter
            omega
          exact List.append_ne_nil_of_right_ne_nil _ fun empty => some (by rw [empty]; rfl)
      · cases parsed

theorem parseOperandsLoop_ok {fuel : Nat} {left : List Char} {p : ParsedOperand}
    (parsed : parseOperand alnum (p.text ++ left) = .ok p) :
    parseOperandsLoop alnum (fuel + 1) (p.text ++ left) = nextOperands (parseOperandsLoop alnum fuel) p left := by
  obtain ⟨c, tail, begins⟩ := List.exists_cons_of_ne_nil
    (List.append_ne_nil_of_left_ne_nil (parseOperand_text_ne_nil parsed) left)
  have dropped : (p.text ++ left).drop p.text.length = left := List.drop_left
  rw [begins] at parsed dropped ⊢
  rw [parseOperandsLoop, parsed]
  simp only [dropped]

structure Accounts (ps : List ParsedOperand) (text : List Char) : Prop where
  all : joined (ps.map (·.text)) = text ∨ joined (ps.map (·.text)) ++ [','] = text
  none : ps = [] → text = []

theorem Accounts.cons {p : ParsedOperand} {ps : List ParsedOperand} {rest : List Char}
    (accounts : Accounts ps rest) : Accounts (p :: ps) (p.text ++ ',' :: rest) := by
  refine ⟨?_, fun empty => by cases empty⟩
  cases ps with
  | nil =>
      rw [accounts.none rfl, List.map_cons, List.map_nil, joined_singleton]
      exact .inr rfl
  | cons q qs =>
      rw [List.map_cons, joined_cons (by simp)]
      rcases accounts.all with exact | comma
      · exact .inl (by rw [exact])
      · exact .inr (by rw [← comma]; simp)

theorem parseOperandsLoop_ends {fuel : Nat} (enough : text.length ≤ fuel) :
    ∃ result, parseOperandsLoop alnum fuel text = some result ∧ ∀ ps, result = .ok ps → Accounts ps text := by
  induction fuel generalizing text with
  | zero =>
      have empty : text = [] := List.length_eq_zero_iff.mp (Nat.le_zero.mp enough)
      refine ⟨.ok [], ?_, ?_⟩
      · rw [empty]
        rfl
      · rintro ps ⟨⟩
        exact ⟨.inl empty.symm, fun _ => empty⟩
  | succ fuel ih =>
      cases text with
      | nil =>
          refine ⟨.ok [], rfl, ?_⟩
          rintro ps ⟨⟩
          exact ⟨.inl rfl, fun _ => rfl⟩
      | cons c tail =>
          cases parsed : parseOperand alnum (c :: tail) with
          | error e => exact ⟨.error e, by rw [parseOperandsLoop, parsed], fun ps accepted => by cases accepted⟩
          | ok p =>
              obtain ⟨left, whole⟩ := parseOperand_start parsed
              rw [← whole] at enough parsed ⊢
              rw [parseOperandsLoop_ok parsed]
              rcases left with _ | ⟨d, rest⟩
              · refine ⟨.ok [p], rfl, ?_⟩
                rintro ps ⟨⟩
                exact ⟨.inl (by simp [joined_singleton]), fun empty => by cases empty⟩
              · by_cases comma : d = ','
                · have less : rest.length ≤ fuel := by
                    simp only [List.length_append, List.length_cons] at enough
                    omega
                  obtain ⟨result, ran, accounts⟩ := ih less
                  rw [comma]
                  refine ⟨result.map (p :: ·), by rw [nextOperands, ran, Option.map_some], ?_⟩
                  cases result with
                  | error e => exact fun ps accepted => by cases accepted
                  | ok ps =>
                      rintro _ ⟨⟩
                      exact (accounts ps rfl).cons
                · exact ⟨_, nextOperands_stuck comma, fun ps accepted => by cases accepted⟩

end

/-! What is printed is read back. -/

namespace Att

variable {alnum : Char → Bool}

def Written.parsed (w : Written alnum) : ParsedOperand := ⟨w.form.operand, w.text⟩

def operandsText (ws : List (Written alnum)) : List Char := joined (ws.map Written.text)

theorem Displacement.text_ne_nil (d : Displacement) : d.text ≠ [] := by
  unfold text Numeral.text
  split
  · exact List.cons_ne_nil _ _
  · split
    · exact List.cons_ne_nil _ _
    · exact d.toDigits.text_ne_nil

theorem Memory.text_ne_nil (m : Memory alnum) : m.text ≠ [] := by
  refine List.append_ne_nil_of_right_ne_nil _ ?_
  rcases m.present with some | some
  · obtain ⟨d, found⟩ := Option.isSome_iff_exists.mp some
    rw [found]
    exact List.append_ne_nil_of_left_ne_nil d.text_ne_nil _
  · obtain ⟨name, found⟩ := Option.isSome_iff_exists.mp some
    obtain ⟨r, registers, _⟩ := Option.bind_eq_some_iff.mp found
    rw [registers]
    exact List.append_ne_nil_of_right_ne_nil _ (List.cons_ne_nil _ _)

theorem Form.head?_ne {tail : List Char} (f : Form alnum) (delimited : Delimited tail) :
    (f.text ++ tail).head? ≠ some '*' := by
  cases f with
  | reg name => exact fun head => by cases head
  | imm n => exact fun head => by cases head
  | addr n gap symbol =>
      rw [Form.text, List.append_assoc]
      exact n.head?_ne (by decide) _
  | mem m =>
      rw [Form.text, Memory.text, List.append_assoc, List.append_assoc]
      cases m.seg with
      | none =>
          refine offsetText_head?_ne m.offset (by decide) (by decide) fun head => ?_
          have stops : Stops (· = '*') (registersText m.registers ++ tail) :=
            registersText_stops m.registers delimited (by decide) (by decide)
          exact absurd (stops '*' head) (by decide)
      | some name => exact fun head => by cases head

theorem splitStar_plain {text : List Char} (plain : text.head? ≠ some '*') : splitStar text = ([], text) := by
  unfold splitStar
  split
  · exact absurd rfl plain
  · rfl

theorem splitStar_written {tail : List Char} (w : Written alnum) (delimited : Delimited tail) :
    splitStar (w.text ++ tail) = (starText w.starred, w.form.text ++ tail) := by
  rw [Written.text, List.append_assoc]
  cases w.starred with
  | false => exact splitStar_plain (w.form.head?_ne delimited)
  | true => rfl

theorem Form.text_ne_nil (f : Form alnum) : f.text ≠ [] := by
  cases f with
  | reg name => exact List.cons_ne_nil _ _
  | imm n => exact List.cons_ne_nil _ _
  | addr n gap symbol => exact List.append_ne_nil_of_left_ne_nil n.text_ne_nil _
  | mem m => exact m.text_ne_nil

theorem parseOperand_written {tail : List Char} (w : Written alnum) (delimited : Delimited tail)
    (last : w.form.isAddr = true → tail = []) : parseOperand alnum (w.text ++ tail) = .ok w.parsed := by
  obtain ⟨captured, read, operand⟩ := w.form.reads delimited last
  have some : w.text ++ tail ≠ [] :=
    List.append_ne_nil_of_left_ne_nil (List.append_ne_nil_of_right_ne_nil _ w.form.text_ne_nil) tail
  unfold parseOperand
  rw [if_neg some, splitStar_written w delimited]
  simp only [read, operand, consumed_append]
  rfl

theorem Written.text_ne_nil (w : Written alnum) : w.text ≠ [] :=
  List.append_ne_nil_of_right_ne_nil _ w.form.text_ne_nil

theorem parseOperandsLoop_operandsText {fuel : Nat} (ws : List (Written alnum))
    (enough : (operandsText ws).length ≤ fuel) (last : ∀ w ∈ ws.dropLast, w.form.isAddr = false) :
    parseOperandsLoop alnum fuel (operandsText ws) = some (.ok (ws.map Written.parsed)) := by
  induction ws generalizing fuel with
  | nil =>
      rw [operandsText, List.map_nil]
      unfold parseOperandsLoop
      rfl
  | cons w ws ih =>
      cases ws with
      | nil =>
          rw [operandsText, List.map_cons, List.map_nil, joined_singleton] at enough ⊢
          have some := List.length_pos_iff.mpr w.text_ne_nil
          obtain ⟨fuel, rfl⟩ := Nat.exists_eq_add_of_lt (Nat.lt_of_lt_of_le some enough)
          have parsed := @parseOperand_written alnum [] w (fun c head => by cases head) fun _ => rfl
          have round := @parseOperandsLoop_ok alnum (0 + fuel) [] w.parsed parsed
          rw [List.append_nil] at round
          exact round
      | cons v vs =>
          have text : operandsText (w :: v :: vs) = w.text ++ ',' :: operandsText (v :: vs) := joined_cons (by simp)
          rw [text, List.length_append, List.length_cons] at enough
          obtain ⟨fuel, rfl⟩ := Nat.exists_eq_add_of_le' (show 1 ≤ fuel by omega)
          have delimited : Delimited (',' :: operandsText (v :: vs)) := fun c head => (Option.some.inj head).symm
          have plain : w.form.isAddr = false := last w (by simp)
          have parsed := parseOperand_written w delimited fun address => by
            rw [plain] at address
            cases address
          have rest := @ih fuel (by omega) fun u member => last u (by simp [member])
          rw [text]
          refine (parseOperandsLoop_ok (p := w.parsed) parsed).trans ?_
          rw [nextOperands, rest]
          rfl

/-! Nothing of the list is stripped. -/

structure Clean (text : List Char) : Prop where
  begins : Stops isSpaceChar text
  ends : Stops isSpaceChar text.reverse

theorem strip_clean {text : List Char} (clean : Clean text) : strip text = text := by
  have begins : text.dropWhile isSpaceChar = text := by
    cases text with
    | nil => rfl
    | cons c tail => simp [clean.begins c rfl]
  rw [strip, begins, List.rdropWhile]
  cases reversed : text.reverse with
  | nil => simpa using reversed.symm
  | cons c tail =>
      have last := clean.ends c (by rw [reversed]; rfl)
      rw [List.dropWhile_cons_of_neg (by simp [last]), ← reversed, List.reverse_reverse]

theorem clean_of_spaceless {text : List Char} (spaceless : ∀ c ∈ text, isSpaceChar c = false) : Clean text := by
  refine ⟨fun c head => spaceless c (List.mem_of_mem_head? head), fun c head => ?_⟩
  exact spaceless c (List.mem_reverse.mp (List.mem_of_mem_head? head))

theorem Clean.append {first second middle : List Char} (some : first ≠ []) (some' : second ≠ [])
    (clean : Clean first) (clean' : Clean second) : Clean (first ++ (middle ++ second)) := by
  refine ⟨Stops.append some clean.begins, ?_⟩
  rw [List.reverse_append, List.reverse_append, List.append_assoc]
  exact Stops.append (by simpa using some') clean'.ends

theorem Word.spaceless (name : Name alnum) : ∀ c ∈ name.chars, isSpaceChar c = false := by
  intro c member
  have both := name.accepted c member
  rw [Bool.and_eq_true, Bool.not_eq_true'] at both
  exact both.2

theorem Numeral.spaceless (n : Numeral) : ∀ c ∈ n.text, isSpaceChar c = false := by
  have digits : ∀ c ∈ n.toDigits.text, isSpaceChar c = false := fun c member =>
    isHexChar_space (n.toDigits.hex c member)
  unfold text
  split
  · simpa using ⟨by decide, by decide, digits⟩
  · exact digits

theorem offsetText_spaceless (offset : Option Displacement) : ∀ c ∈ offsetText offset, isSpaceChar c = false := by
  cases offset with
  | none => exact fun c member => by cases member
  | some d =>
      change ∀ c ∈ d.text, isSpaceChar c = false
      unfold Displacement.text
      split
      · simpa using ⟨by decide, d.toNumeral.spaceless⟩
      · exact d.toNumeral.spaceless

theorem segText_spaceless (seg : Option (Name alnum)) : ∀ c ∈ segText seg, isSpaceChar c = false := by
  cases seg with
  | none => exact fun c member => by cases member
  | some name =>
      have inside := Word.spaceless name
      intro c member
      simp only [segText, List.mem_cons, List.mem_append, List.not_mem_nil, or_false] at member
      rcases member with rfl | member | rfl
      · rfl
      · exact inside c member
      · rfl

theorem baseText_spaceless (base : Option (Name alnum)) : ∀ c ∈ baseText base, isSpaceChar c = false := by
  cases base with
  | none => exact fun c member => by cases member
  | some name => simpa [baseText] using ⟨by decide, Word.spaceless name⟩

theorem indexText_spaceless (index : Option (Name alnum × Option Scale)) :
    ∀ c ∈ indexText index, isSpaceChar c = false := by
  rcases index with _ | ⟨name, scale⟩
  · exact fun c member => by cases member
  · intro c member
    simp only [indexText, List.mem_cons, List.mem_append] at member
    rcases member with rfl | rfl | member | member
    · rfl
    · rfl
    · exact Word.spaceless name c member
    · cases scale with
      | none => cases member
      | some s =>
          have scale : isSpaceChar (scaleChar s) = false := by cases s <;> rfl
          have tail : ∀ c ∈ [',', scaleChar s], isSpaceChar c = false :=
            List.forall_mem_cons.mpr ⟨rfl, List.forall_mem_singleton.mpr scale⟩
          exact tail c member

theorem registersText_spaceless (registers : Option (Registers alnum)) :
    ∀ c ∈ registersText registers, isSpaceChar c = false := by
  rcases registers with _ | ⟨base, index⟩
  · exact fun c member => by cases member
  · intro c member
    simp only [registersText, List.mem_cons, List.mem_append, List.not_mem_nil, or_false] at member
    rcases member with rfl | member | member | rfl
    · rfl
    · exact baseText_spaceless base c member
    · exact indexText_spaceless index c member
    · rfl

theorem Form.clean (f : Form alnum) : Clean f.text := by
  cases f with
  | reg name =>
      refine clean_of_spaceless ?_
      simpa [Form.text] using ⟨by decide, Word.spaceless name⟩
  | imm n =>
      refine clean_of_spaceless ?_
      simpa [Form.text] using ⟨by decide, n.spaceless⟩
  | addr n gap symbol =>
      have digits : Clean n.text := clean_of_spaceless fun c member => isHexChar_space (n.hex c member)
      have bracket : Clean ['>'] := clean_of_spaceless (List.forall_mem_singleton.mpr rfl)
      have text : (Form.addr n gap symbol : Form alnum).text =
          n.text ++ ((gap.chars ++ '<' :: symbol.chars) ++ ['>']) := by simp [Form.text]
      rw [text]
      exact Clean.append n.text_ne_nil (by simp) digits bracket
  | mem m =>
      refine clean_of_spaceless fun c member => ?_
      rcases List.mem_append.mp member with seg | rest
      · exact segText_spaceless m.seg c seg
      · rcases List.mem_append.mp rest with offset | registers
        · exact offsetText_spaceless m.offset c offset
        · exact registersText_spaceless m.registers c registers

theorem Written.clean (w : Written alnum) : Clean w.text := by
  unfold text
  cases w.starred with
  | false => exact w.form.clean
  | true =>
      have star : Clean ['*'] := clean_of_spaceless (List.forall_mem_singleton.mpr rfl)
      exact @Clean.append ['*'] w.form.text [] (by simp) w.form.text_ne_nil star w.form.clean

theorem operandsText_ne_nil {ws : List (Written alnum)} (some : ws ≠ []) : operandsText ws ≠ [] := by
  obtain ⟨w, more, rfl⟩ := List.exists_cons_of_ne_nil some
  cases more with
  | nil =>
      rw [operandsText, List.map_cons, List.map_nil, joined_singleton]
      exact w.text_ne_nil
  | cons v vs =>
      rw [operandsText, List.map_cons, joined_cons (by simp)]
      exact List.append_ne_nil_of_left_ne_nil w.text_ne_nil _

theorem operandsText_clean (ws : List (Written alnum)) : Clean (operandsText ws) := by
  induction ws with
  | nil => exact clean_of_spaceless fun c member => by cases member
  | cons w more ih =>
      cases more with
      | nil =>
          rw [operandsText, List.map_cons, List.map_nil, joined_singleton]
          exact w.clean
      | cons v vs =>
          rw [operandsText, List.map_cons, joined_cons (by simp)]
          exact @Clean.append _ _ [','] w.text_ne_nil (operandsText_ne_nil (by simp)) w.clean ih

end Att

/-- `_parse_operands` reads back every list of operands that is printed, and whatever the text is, it ends and
leaves out no part of what it accepts. -/
theorem parseOperands_exact (alnum : Char → Bool) :
    (∀ ws : List (Att.Written alnum), (∀ w ∈ ws.dropLast, w.form.isAddr = false) →
      parseOperands alnum (some (Att.operandsText ws)) = some (.ok (ws.map Att.Written.parsed))) ∧
    ∀ operandStr : Option (List Char), ∃ result, parseOperands alnum operandStr = some result ∧
      ∀ ps, result = .ok ps → joined (ps.map (·.text)) = strip (operandStr.getD []) ∨
        joined (ps.map (·.text)) ++ [','] = strip (operandStr.getD []) := by
  refine ⟨fun ws last => ?_, fun operandStr => ?_⟩
  · unfold parseOperands
    rw [Option.getD_some, Att.strip_clean (Att.operandsText_clean ws)]
    exact Att.parseOperandsLoop_operandsText ws (Nat.le_refl _) last
  · obtain ⟨result, ran, accounts⟩ := @parseOperandsLoop_ends alnum
      (strip (operandStr.getD [])) _ (Nat.le_refl _)
    exact ⟨result, ran, fun ps accepted => (accounts ps accepted).all⟩

theorem parseOperands_exact_two :
    ∃ first second third : Att.Written fun _ => false,
      Att.operandsText [first, second] = "-0x8(%rax,%rcx,4),%rdx".toList ∧
      Att.operandsText [third] = "*401000 <f>".toList ∧
      parseOperands (fun _ => false) (some "-0x8(%rax,%rcx,4),%rdx".toList) =
        some (.ok [first.parsed, second.parsed]) ∧
      parseOperands (fun _ => false) (some "*401000 <f>".toList) =
        some (.ok [third.parsed]) := by
  -- `-0x8(%rax,%rcx,4),%rdx` and `*401000 <f>`.
  let name (text : List Char) (nonempty : text ≠ [])
      (word : ∀ c ∈ text, (isWordChar (fun _ => false) c && !isSpaceChar c) = true) : Att.Name fun _ => false :=
    ⟨text, nonempty, word⟩
  let slot : Att.Memory fun _ => false :=
    ⟨none, some ⟨⟨⟨0, 8⟩, true⟩, true⟩,
      some ⟨some (name ['r', 'a', 'x'] (by decide) (List.all_eq_true.mp rfl)),
        some (name ['r', 'c', 'x'] (by decide) (List.all_eq_true.mp rfl), some .four)⟩, .inl rfl⟩
  let first : Att.Written fun _ => false := ⟨false, .mem slot⟩
  let second : Att.Written fun _ => false :=
    ⟨false, .reg (name ['r', 'd', 'x'] (by decide) (List.all_eq_true.mp rfl))⟩
  let third : Att.Written fun _ => false :=
    ⟨true, .addr ⟨0, 0x401000⟩ ⟨[' '], by decide, List.forall_mem_singleton.mpr rfl⟩
      ⟨['f'], by decide, List.forall_mem_singleton.mpr rfl⟩⟩
  have text : Att.operandsText [first, second] = "-0x8(%rax,%rcx,4),%rdx".toList := by decide
  have text' : Att.operandsText [third] = "*401000 <f>".toList := by decide
  refine ⟨first, second, third, text, text', ?_, ?_⟩
  · rw [← text]
    exact (parseOperands_exact fun _ => false).1 [first, second] (by decide)
  · rw [← text']
    exact (parseOperands_exact fun _ => false).1 [third] (by decide)

end Tase
