import Tase.Text.Regex

/-! Which match of a pattern is tried first, and when there is none. -/

namespace Regex

def Stops (accepts : Char → Bool) (text : List Char) : Prop := ∀ c ∈ text.head?, accepts c = false

theorem Stops.cons {accepts : Char → Bool} {c : Char} {rest : List Char} (rejected : accepts c = false) :
    Stops accepts (c :: rest) := by simpa [Stops] using rejected

theorem Stops.append {accepts : Char → Bool} {text rest : List Char} (nonempty : text ≠ [])
    (stops : Stops accepts text) : Stops accepts (text ++ rest) := by
  obtain ⟨c, tail, rfl⟩ := List.exists_cons_of_ne_nil nonempty
  exact stops

section

variable {accepts : Char → Bool} {text : List Char}

theorem rests_stops (stops : Stops accepts text) : rests accepts text = [] := by
  cases text with
  | nil => rfl
  | cons c rest => simp [rests, stops c rfl]

theorem rests_append {word : List Char} (nonempty : word ≠ []) (accepted : ∀ c ∈ word, accepts c = true) :
    ∃ more, rests accepts (word ++ text) = rests accepts text ++ text :: more := by
  induction word with
  | nil => exact absurd rfl nonempty
  | cons c tail ih =>
      have first : accepts c = true := accepted c List.mem_cons_self
      simp only [List.cons_append, rests, first, if_true]
      by_cases short : tail = []
      · exact ⟨[], by simp [short]⟩
      · obtain ⟨more, read⟩ := ih short fun d member => accepted d (List.mem_cons_of_mem c member)
        exact ⟨more ++ [tail ++ text], by simp [read]⟩

theorem mem_rests_append {word left : List Char} (accepted : ∀ c ∈ word, accepts c = true)
    (stops : Stops accepts text) (member : left ∈ rests accepts (word ++ text)) :
    left = text ∨ ∃ c ∈ left.head?, accepts c = true := by
  induction word with
  | nil =>
      rw [List.nil_append, rests_stops stops] at member
      cases member
  | cons c tail ih =>
      have rest : ∀ d ∈ tail, accepts d = true := fun d inside => accepted d (List.mem_cons_of_mem c inside)
      rw [List.cons_append, rests, accepted c List.mem_cons_self, if_pos rfl] at member
      rcases List.mem_append.mp member with longer | here
      · exact ih rest longer
      · rw [List.mem_singleton.mp here]
        cases tail with
        | nil => exact .inl rfl
        | cons d tail => exact .inr ⟨d, rfl, rest d List.mem_cons_self⟩

theorem rests_shorter {left : List Char} (member : left ∈ rests accepts text) : left.length < text.length := by
  obtain ⟨word, rfl, nonempty, _⟩ := rests_word member
  have some := List.length_pos_iff.mpr nonempty
  rw [List.length_append]
  omega

end

namespace Pattern

variable {γ : Type}

def consumes : Pattern γ → Bool
  | .empty | .opt _ | .star _ | .ahead _ | .stop => false
  | .one _ | .plus _ => true
  | .seq first second => first.consumes || second.consumes
  | .alt first second => first.consumes && second.consumes
  | .group _ inner => inner.consumes

def groupless : Pattern γ → Bool
  | .empty | .one _ | .plus _ | .stop => true
  | .seq first second | .alt first second => first.groupless && second.groupless
  | .opt inner | .star inner | .ahead inner => inner.groupless
  | .group _ _ => false

variable [DecidableEq γ]

/-- `r` is the first match. -/
def Reads (p : Pattern γ) (groups : Groups γ) (text : List Char) (r : Groups γ × List Char) : Prop :=
  ∃ more, p.run groups text = r :: more

def Fails (p : Pattern γ) (text : List Char) : Prop := ∀ groups, p.run groups text = []

theorem run_shorter {p : Pattern γ} {groups : Groups γ} {text : List Char} {r : Groups γ × List Char}
    (some : p.consumes = true) (found : r ∈ p.run groups text) : r.2.length < text.length := by
  induction p generalizing groups text r with
  | empty | opt | star | ahead | stop => cases some
  | one accepts =>
      cases text with
      | nil => cases found
      | cons c rest =>
          rw [run_one] at found
          split at found
          · rw [List.mem_singleton.mp found]
            exact Nat.lt_succ_self _
          · cases found
  | plus accepts =>
      obtain ⟨rest, left, rfl⟩ := List.mem_map.mp found
      exact rests_shorter left
  | seq first second ihFirst ihSecond =>
      obtain ⟨middle, before, after⟩ := List.mem_flatMap.mp found
      rcases Bool.or_eq_true_iff.mp some with early | late
      · exact Nat.lt_of_le_of_lt (run_suffix after).length_le (ihFirst early before)
      · exact Nat.lt_of_lt_of_le (ihSecond late after) (run_suffix before).length_le
  | alt first second ihFirst ihSecond =>
      obtain ⟨both, both'⟩ := Bool.and_eq_true_iff.mp some
      rcases List.mem_append.mp found with here | there
      · exact ihFirst both here
      · exact ihSecond both' there
  | group name inner ih =>
      obtain ⟨inside, here, rfl⟩ := List.mem_map.mp found
      exact ih (r := inside) some here

theorem run_opt_cases {p : Pattern γ} {groups : Groups γ} {text : List Char} {r : Groups γ × List Char}
    (some : p.consumes = true) (found : r ∈ (opt p).run groups text) :
    r = (groups, text) ∨ r.2.length < text.length := by
  rcases List.mem_append.mp found with here | none
  · exact .inr (run_shorter some here)
  · exact .inl (List.mem_singleton.mp none)

theorem run_groupless {p : Pattern γ} {groups : Groups γ} {text : List Char} {r : Groups γ × List Char}
    (none : p.groupless = true) (found : r ∈ p.run groups text) : r.1 = groups := by
  induction p generalizing groups text r with
  | empty => rw [List.mem_singleton.mp found]
  | one accepts =>
      cases text with
      | nil => cases found
      | cons c rest =>
          rw [run_one] at found
          split at found
          · rw [List.mem_singleton.mp found]
          · cases found
  | plus accepts =>
      obtain ⟨rest, left, rfl⟩ := List.mem_map.mp found
      rfl
  | seq first second ihFirst ihSecond =>
      obtain ⟨both, both'⟩ := Bool.and_eq_true_iff.mp none
      obtain ⟨middle, before, after⟩ := List.mem_flatMap.mp found
      rw [ihSecond both' after, ihFirst both before]
  | alt first second ihFirst ihSecond =>
      obtain ⟨both, both'⟩ := Bool.and_eq_true_iff.mp none
      rcases List.mem_append.mp found with here | there
      · exact ihFirst both here
      · exact ihSecond both' there
  | opt inner ih =>
      rcases List.mem_append.mp found with here | skipped
      · exact ih none here
      · rw [List.mem_singleton.mp skipped]
  | star inner ih =>
      refine rounds_induction (P := fun s => s.1 = groups) (fun s s' before step => ?_) rfl found
      rw [ih none (List.mem_of_mem_filter step), before]
  | group name inner => cases none
  | ahead inner ih =>
      rw [run_ahead, Option.mem_toList, Option.map_eq_some_iff] at found
      obtain ⟨s, matched, rfl⟩ := found
      exact ih (r := s) none (List.mem_of_mem_head? matched)
  | stop =>
      rw [run_stop] at found
      split at found
      · rw [List.mem_singleton.mp found]
      · cases found

theorem run_times {accepts : Char → Bool} {n : Nat} {groups : Groups γ} {text : List Char}
    {r : Groups γ × List Char} (found : r ∈ (times (one accepts) n).run groups text) :
    ∃ word, text = word ++ r.2 ∧ word.length = n ∧ ∀ c ∈ word, accepts c = true := by
  induction n generalizing groups text with
  | zero =>
      rw [List.mem_singleton.mp found]
      exact ⟨[], rfl, rfl, fun c member => by cases member⟩
  | succ n ih =>
      obtain ⟨middle, before, after⟩ := List.mem_flatMap.mp found
      cases text with
      | nil => cases before
      | cons c rest =>
          rw [run_one] at before
          split at before
          next accepted =>
            rw [List.mem_singleton.mp before] at after
            obtain ⟨word, whole, length, run⟩ := ih after
            exact ⟨c :: word, by rw [List.cons_append, ← whole], by rw [List.length_cons, length],
              List.forall_mem_cons.mpr ⟨accepted, run⟩⟩
          next => cases before

theorem run_chars {word : List Char} {groups : Groups γ} {text : List Char} {r : Groups γ × List Char}
    (found : r ∈ (chars word).run groups text) : text = word ++ r.2 := by
  induction word generalizing groups text with
  | nil => rw [List.mem_singleton.mp found, List.nil_append]
  | cons c word ih =>
      obtain ⟨middle, first, later⟩ := List.mem_flatMap.mp found
      cases text with
      | nil => cases first
      | cons d rest =>
          rw [char, run_one] at first
          split at first
          next same =>
            rw [List.mem_singleton.mp first] at later
            rw [of_decide_eq_true same, List.cons_append, ← ih later]
          next => cases first

theorem consumed_append (word rest : List Char) : consumed (word ++ rest) rest = word := by
  rw [consumed, List.length_append, Nat.add_sub_cancel, List.take_left]

section

variable {p q : Pattern γ} {groups groups' : Groups γ} {text rest : List Char} {r r' : Groups γ × List Char}
  {accepts : Char → Bool} {c : Char} {name : γ}

theorem Reads.first (reads : p.Reads (fun _ => none) text r) : p.first text = some r := by
  obtain ⟨more, ran⟩ := reads
  rw [Pattern.first, ran, List.head?_cons]

theorem Reads.seq (before : p.Reads groups text r) (after : q.Reads r.1 r.2 r') :
    (Pattern.seq p q).Reads groups text r' := by
  obtain ⟨more, ran⟩ := before
  obtain ⟨more', ran'⟩ := after
  exact ⟨more' ++ more.flatMap fun s => q.run s.1 s.2, by
    rw [run_seq, ran, List.flatMap_cons, ran', List.cons_append]⟩

theorem Reads.seq_later {early : List (Groups γ × List Char)} {more : List (Groups γ × List Char)}
    (ran : p.run groups text = early ++ r :: more) (stuck : ∀ s ∈ early, q.Fails s.2)
    (after : q.Reads r.1 r.2 r') : (Pattern.seq p q).Reads groups text r' := by
  -- Backtracking: what comes before `r` leads nowhere.
  obtain ⟨more', ran'⟩ := after
  have nothing : early.flatMap (fun s => q.run s.1 s.2) = [] :=
    List.flatMap_eq_nil_iff.mpr fun s member => stuck s member s.1
  exact ⟨more' ++ more.flatMap fun s => q.run s.1 s.2, by
    rw [run_seq, ran, List.flatMap_append, nothing, List.nil_append, List.flatMap_cons, ran', List.cons_append]⟩

theorem Reads.altLeft (reads : p.Reads groups text r) : (Pattern.alt p q).Reads groups text r := by
  obtain ⟨more, ran⟩ := reads
  exact ⟨more ++ q.run groups text, by rw [run_alt, ran, List.cons_append]⟩

theorem Reads.altRight (fails : p.Fails text) (reads : q.Reads groups text r) :
    (Pattern.alt p q).Reads groups text r := by
  obtain ⟨more, ran⟩ := reads
  exact ⟨more, by rw [run_alt, fails groups, ran, List.nil_append]⟩

theorem Reads.optSome (reads : p.Reads groups text r) : (Pattern.opt p).Reads groups text r := by
  obtain ⟨more, ran⟩ := reads
  exact ⟨more ++ [(groups, text)], by rw [run_opt, ran, List.cons_append]⟩

theorem Reads.optNone (fails : p.Fails text) : (Pattern.opt p).Reads groups text (groups, text) :=
  ⟨[], by rw [run_opt, fails groups, List.nil_append]⟩

theorem Reads.one (accepted : accepts c = true) : (Pattern.one accepts).Reads groups (c :: rest) (groups, rest) :=
  ⟨[], by rw [run_one, if_pos accepted]⟩

theorem Reads.char : (Pattern.char c).Reads groups (c :: rest) (groups, rest) := Reads.one (by simp)

theorem Reads.chars {word : List Char} : (Pattern.chars word).Reads groups (word ++ rest) (groups, rest) := by
  induction word with
  | nil => exact ⟨[], rfl⟩
  | cons c word ih => exact Reads.seq Reads.char ih

theorem Reads.plus {word : List Char} (nonempty : word ≠ []) (accepted : ∀ c ∈ word, accepts c = true)
    (stops : Stops accepts rest) : (Pattern.plus accepts).Reads groups (word ++ rest) (groups, rest) := by
  obtain ⟨more, left⟩ := @rests_append accepts rest word nonempty accepted
  rw [rests_stops stops, List.nil_append] at left
  exact ⟨more.map (groups, ·), by rw [run_plus, left, List.map_cons]⟩

theorem Reads.group {word : List Char} (reads : p.Reads groups (word ++ rest) (groups', rest)) :
    (Pattern.group name p).Reads groups (word ++ rest) (Function.update groups' name (some word), rest) := by
  obtain ⟨more, ran⟩ := reads
  exact ⟨_, by rw [run_group, ran, List.map_cons, consumed_append]⟩

theorem Reads.optPlus {word : List Char} (accepted : ∀ c ∈ word, accepts c = true) (stops : Stops accepts rest) :
    (Pattern.opt (.plus accepts)).Reads groups (word ++ rest) (groups, rest) := by
  by_cases empty : word = []
  · rw [empty, List.nil_append]
    refine Reads.optNone fun groups => ?_
    rw [run_plus, rests_stops stops, List.map_nil]
  · exact Reads.optSome (Reads.plus empty accepted stops)

theorem Reads.times {word : List Char} (accepted : ∀ c ∈ word, accepts c = true) :
    (Pattern.times (.one accepts) word.length).Reads groups (word ++ rest) (groups, rest) := by
  induction word with
  | nil => exact ⟨[], rfl⟩
  | cons c word ih =>
      obtain ⟨first, others⟩ := List.forall_mem_cons.mp accepted
      exact Reads.seq (Reads.one first) (ih others)

theorem Reads.star {words : List (List Char)} (nonempty : ∀ word ∈ words, word ≠ [])
    (each : ∀ word ∈ words, ∀ rest, p.Reads groups (word ++ rest) (groups, rest)) (ends : p.Fails rest) :
    (Pattern.star p).Reads groups (words.flatten ++ rest) (groups, rest) := by
  have rounds (fuel : Nat) (enough : (words.flatten ++ rest).length ≤ fuel) : ∃ more,
      rounds (fun r => (p.run r.1 r.2).filter fun r' => r'.2.length < r.2.length) fuel
        (groups, words.flatten ++ rest) = (groups, rest) :: more := by
    induction words generalizing fuel with
    | nil =>
        cases fuel with
        | zero => exact ⟨[], rfl⟩
        | succ fuel => exact ⟨[], by simp [Regex.rounds, ends groups]⟩
    | cons word words ih =>
        obtain ⟨some, nonempty⟩ := List.forall_mem_cons.mp nonempty
        obtain ⟨here, each⟩ := List.forall_mem_cons.mp each
        obtain ⟨others, ran⟩ := here (words.flatten ++ rest)
        have length := List.length_pos_iff.mpr some
        rw [List.flatten_cons, List.append_assoc, List.length_append] at enough
        obtain ⟨fuel, rfl⟩ := Nat.exists_eq_add_of_le' (show 1 ≤ fuel by omega)
        obtain ⟨more, later⟩ := ih nonempty each fuel (by omega)
        have shorter : (words.flatten ++ rest).length < (word ++ (words.flatten ++ rest)).length := by
          simp only [List.length_append]
          omega
        rw [List.flatten_cons, List.append_assoc, Regex.rounds]
        simp only [ran]
        rw [List.filter_cons_of_pos (by simpa using shorter), List.flatMap_cons, later]
        exact ⟨_, by rw [List.cons_append, List.cons_append]⟩
  exact rounds _ (Nat.le_refl _)

theorem Reads.ahead (reads : p.Reads groups text r) : (Pattern.ahead p).Reads groups text (r.1, text) := by
  obtain ⟨more, ran⟩ := reads
  exact ⟨[], by rw [run_ahead, ran, List.head?_cons, Option.map_some, Option.toList_some]⟩

theorem Reads.stop : (Pattern.stop : Pattern γ).Reads groups [] (groups, []) := ⟨[], rfl⟩

theorem Fails.first (fails : p.Fails text) : p.first text = none := by
  rw [Pattern.first, fails, List.head?_nil]

theorem Fails.seq (stuck : ∀ groups, ∀ s ∈ p.run groups text, q.Fails s.2) : (Pattern.seq p q).Fails text := by
  intro groups
  exact List.flatMap_eq_nil_iff.mpr fun s member => stuck groups s member s.1

theorem Fails.seqFirst (fails : p.Fails text) : (Pattern.seq p q).Fails text :=
  Fails.seq fun groups s member => by
    rw [fails groups] at member
    cases member

theorem Fails.alt (left : p.Fails text) (right : q.Fails text) : (Pattern.alt p q).Fails text := by
  intro groups
  rw [run_alt, left groups, right groups, List.nil_append]

theorem Fails.one (stops : Stops accepts text) : (Pattern.one accepts : Pattern γ).Fails text := by
  intro groups
  cases text with
  | nil => rfl
  | cons c rest => rw [run_one, stops c rfl, if_neg Bool.false_ne_true]

theorem Fails.char (other : text.head? ≠ some c) : (Pattern.char c : Pattern γ).Fails text := by
  refine Fails.one fun d head => ?_
  rw [Option.mem_def] at head
  rw [head] at other
  simpa using other

theorem Fails.chars {word : List Char} (apart : ¬word <+: text) : (Pattern.chars word : Pattern γ).Fails text := by
  intro groups
  refine List.eq_nil_iff_forall_not_mem.mpr fun s found => apart ?_
  exact ⟨s.2, (run_chars found).symm⟩

theorem Fails.plus (stops : Stops accepts text) : (Pattern.plus accepts : Pattern γ).Fails text := by
  intro groups
  rw [run_plus, rests_stops stops, List.map_nil]

theorem Fails.group (fails : p.Fails text) : (Pattern.group name p).Fails text := by
  intro groups
  rw [run_group, fails groups, List.map_nil]

theorem Fails.ahead (fails : p.Fails text) : (Pattern.ahead p).Fails text := by
  intro groups
  rw [run_ahead, fails groups]
  rfl

theorem Fails.charSeq (fails : q.Fails rest) : (Pattern.seq (Pattern.char c) q).Fails (c :: rest) := by
  refine Fails.seq fun groups s member => ?_
  rw [Pattern.char, run_one, if_pos (by simp), List.mem_singleton] at member
  rwa [member]

theorem Fails.optSeq (left : p.Fails text) (right : q.Fails text) :
    (Pattern.seq (Pattern.opt p) q).Fails text := by
  refine Fails.seq fun groups s member => ?_
  rw [run_opt, left groups, List.nil_append, List.mem_singleton] at member
  rwa [member]

theorem Fails.wordSeq {word : List Char} (accepted : ∀ c ∈ word, accepts c = true) (stops : Stops accepts rest)
    (behind : q.Fails rest) (inside : ∀ left, (∃ c ∈ left.head?, accepts c = true) → q.Fails left) :
    (Pattern.seq (.group name (.plus accepts)) q).Fails (word ++ rest) := by
  -- No part of a run is followed by what `q` needs.
  refine Fails.seq fun groups s member => ?_
  obtain ⟨t, within, rfl⟩ := List.mem_map.mp member
  obtain ⟨left, reached, rfl⟩ := List.mem_map.mp within
  rcases mem_rests_append accepted stops reached with rfl | begins
  · exact behind
  · exact inside left begins

/-! Alternatives that are words. -/

def anyOf : List Char → List (List Char) → Pattern γ
  -- `w₁|w₂|…`.
  | word, [] => chars word
  | word, next :: more => .alt (chars word) (anyOf next more)

theorem Fails.anyOf {word : List Char} {more : List (List Char)} (apart : ∀ w ∈ word :: more, ¬w <+: text) :
    (Pattern.anyOf word more : Pattern γ).Fails text := by
  induction more generalizing word with
  | nil => exact Fails.chars (apart word List.mem_cons_self)
  | cons next more ih =>
      obtain ⟨first, others⟩ := List.forall_mem_cons.mp apart
      exact Fails.alt (Fails.chars first) (ih others)

theorem Fails.charsChar {word : List Char} (apart : ¬(word ++ [c]) <+: text) :
    (Pattern.seq (.chars word) (.char c) : Pattern γ).Fails text := by
  refine Fails.seq fun groups s member => Fails.char fun head => apart ?_
  rw [run_chars member, List.eq_cons_of_mem_head? head]
  exact ⟨s.2.tail, by simp⟩

theorem Reads.anyOf {word first : List Char} {more : List (List Char)} (listed : word ∈ first :: more)
    (closed : ∀ w ∈ first :: more, c ∉ w) :
    (Pattern.seq (.anyOf first more) (.char c)).Reads groups (word ++ c :: rest) (groups, rest) := by
  induction more generalizing first with
  | nil =>
      rw [List.mem_singleton.mp listed]
      exact Reads.seq Reads.chars Reads.char
  | cons next more ih =>
      obtain ⟨here, others⟩ := List.forall_mem_cons.mp closed
      have split : (Pattern.seq (.anyOf first (next :: more)) (.char c)).run groups (word ++ c :: rest) =
          (Pattern.seq (.chars first) (.char c)).run groups (word ++ c :: rest) ++
            (Pattern.seq (.anyOf next more) (.char c)).run groups (word ++ c :: rest) := List.flatMap_append
      by_cases same : word = first
      · obtain ⟨more', ran⟩ : (Pattern.seq (.chars first) (.char c)).Reads groups (word ++ c :: rest) (groups, rest) :=
          same ▸ Reads.seq Reads.chars Reads.char
        exact ⟨_, by rw [split, ran, List.cons_append]⟩
      · have later : word ∈ next :: more := (List.mem_cons.mp listed).resolve_left same
        have apart : ¬(first ++ [c]) <+: word ++ c :: rest := by
          rintro ⟨behind, both⟩
          rw [List.append_assoc, List.singleton_append] at both
          have before := congrArg (List.takeWhile fun d => decide (d ≠ c)) both
          rw [List.takeWhile_append_of_pos (by simpa using fun d member => ne_of_mem_of_not_mem member here),
            List.takeWhile_append_of_pos
              (by simpa using fun d member => ne_of_mem_of_not_mem member (others word later))] at before
          exact same (by simpa using before.symm)
        obtain ⟨more', ran⟩ := ih later others
        exact ⟨more', by rw [split, Fails.charsChar apart groups, ran, List.nil_append]⟩

end

end Pattern

end Regex
