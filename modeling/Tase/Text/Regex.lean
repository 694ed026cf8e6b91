import Mathlib.Data.List.Infix

/-! Regular expressions as a backtracking matcher reads them: all matches at the start of a text, in the
order in which they are tried. -/

namespace Regex

inductive Pattern (γ : Type)
  | empty
  | one (accepts : Char → Bool)
  | plus (accepts : Char → Bool)
  | seq (first second : Pattern γ)
  | alt (first second : Pattern γ)
  | opt (inner : Pattern γ)
  /-- `(…)*`; rounds that consume nothing are left out. -/
  | star (inner : Pattern γ)
  | group (name : γ) (inner : Pattern γ)
  /-- `(?=…)`. -/
  | ahead (inner : Pattern γ)
  /-- `$`: at the end, or before a line feed that ends the text. -/
  | stop

abbrev Groups (γ : Type) := γ → Option (List Char)

def rests (accepts : Char → Bool) : List Char → List (List Char)
  | [] => []
  | c :: rest => if accepts c then rests accepts rest ++ [rest] else []

/-- What at most `fuel` rounds can lead to, the most rounds first. -/
def rounds {σ : Type} (step : σ → List σ) : Nat → σ → List σ
  | 0, s => [s]
  | fuel + 1, s => (step s).flatMap (rounds step fuel) ++ [s]

def consumed (text rest : List Char) : List Char := text.take (text.length - rest.length)

namespace Pattern

variable {γ : Type}

def char (c : Char) : Pattern γ := .one (· = c)

def chars : List Char → Pattern γ
  | [] => .empty
  | c :: rest => .seq (char c) (chars rest)

def times (p : Pattern γ) : Nat → Pattern γ
  -- `(…){n}`.
  | 0 => .empty
  | n + 1 => .seq p (times p n)

variable [DecidableEq γ]

def run : Pattern γ → Groups γ → List Char → List (Groups γ × List Char)
  | .empty, groups, text => [(groups, text)]
  | .one _, _, [] => []
  | .one accepts, groups, c :: rest => if accepts c then [(groups, rest)] else []
  | .plus accepts, groups, text => (rests accepts text).map (groups, ·)
  | .seq first second, groups, text => (first.run groups text).flatMap fun r => second.run r.1 r.2
  | .alt first second, groups, text => first.run groups text ++ second.run groups text
  | .opt inner, groups, text => inner.run groups text ++ [(groups, text)]
  | .star inner, groups, text =>
      rounds (fun r => (inner.run r.1 r.2).filter fun r' => r'.2.length < r.2.length) text.length (groups, text)
  | .group name inner, groups, text =>
      (inner.run groups text).map fun r => (Function.update r.1 name (some (consumed text r.2)), r.2)
  | .ahead inner, groups, text => ((inner.run groups text).head?.map fun r => (r.1, text)).toList
  | .stop, groups, text => if text = [] ∨ text = ['\n'] then [(groups, text)] else []

section

variable {p q : Pattern γ} {groups : Groups γ} {text rest : List Char} {accepts : Char → Bool} {c : Char}

theorem run_one : (one accepts).run groups (c :: rest) = if accepts c then [(groups, rest)] else [] := rfl

theorem run_plus : (plus accepts).run groups text = (rests accepts text).map (groups, ·) := rfl

theorem run_seq :
    (seq p q).run groups text = (p.run groups text).flatMap fun r => q.run r.1 r.2 := rfl

theorem run_alt : (alt p q).run groups text = p.run groups text ++ q.run groups text := rfl

theorem run_opt : (opt p).run groups text = p.run groups text ++ [(groups, text)] := rfl

theorem run_group {name : γ} : (group name p).run groups text =
    (p.run groups text).map fun r => (Function.update r.1 name (some (consumed text r.2)), r.2) := rfl

theorem run_ahead :
    (ahead p).run groups text = ((p.run groups text).head?.map fun r => (r.1, text)).toList := rfl

theorem run_stop : (stop : Pattern γ).run groups text =
    if text = [] ∨ text = ['\n'] then [(groups, text)] else [] := rfl

end

def first (p : Pattern γ) (text : List Char) : Option (Groups γ × List Char) :=
  (p.run (fun _ => none) text).head?

end Pattern

theorem rests_word {accepts : Char → Bool} {text rest : List Char} (left : rest ∈ rests accepts text) :
    ∃ word, text = word ++ rest ∧ word ≠ [] ∧ ∀ c ∈ word, accepts c = true := by
  induction text with
  | nil => cases left
  | cons c tail ih =>
      unfold rests at left
      split at left
      next accepted =>
        rcases List.mem_append.mp left with later | here
        · obtain ⟨word, whole, _, run⟩ := ih later
          exact ⟨c :: word, by rw [whole, List.cons_append], List.cons_ne_nil c word,
            List.forall_mem_cons.mpr ⟨accepted, run⟩⟩
        · exact ⟨[c], by rw [List.mem_singleton.mp here, List.singleton_append], List.cons_ne_nil c [],
            by simpa using accepted⟩
      next => cases left

theorem rests_suffix {accepts : Char → Bool} {text rest : List Char} (left : rest ∈ rests accepts text) :
    rest <:+ text := by
  obtain ⟨word, whole, _⟩ := rests_word left
  exact ⟨word, whole.symm⟩

theorem rounds_induction {σ : Type} {step : σ → List σ} {P : σ → Prop} (keeps : ∀ s s', P s → s' ∈ step s → P s')
    {fuel : Nat} {s s' : σ} (start : P s) (reached : s' ∈ rounds step fuel s) : P s' := by
  induction fuel generalizing s with
  | zero =>
      rw [rounds, List.mem_singleton] at reached
      rwa [reached]
  | succ fuel ih =>
      rcases List.mem_append.mp reached with more | stay
      · obtain ⟨middle, first, rest⟩ := List.mem_flatMap.mp more
        exact ih (keeps s middle start first) rest
      · rwa [List.mem_singleton.mp stay]

namespace Pattern

variable {γ : Type} [DecidableEq γ] {p : Pattern γ} {groups : Groups γ} {text : List Char}
  {r : Groups γ × List Char}

theorem run_suffix (found : r ∈ p.run groups text) : r.2 <:+ text := by
  induction p generalizing groups text r with
  | empty => rw [List.mem_singleton.mp found]
  | one accepts =>
      cases text with
      | nil => cases found
      | cons c rest =>
          rw [run_one] at found
          split at found
          · rw [List.mem_singleton] at found
            rw [found]
            exact List.suffix_cons c rest
          · cases found
  | plus accepts =>
      obtain ⟨rest, left, rfl⟩ := List.mem_map.mp found
      exact rests_suffix left
  | seq first second ihFirst ihSecond =>
      obtain ⟨middle, before, after⟩ := List.mem_flatMap.mp found
      exact (ihSecond after).trans (ihFirst before)
  | alt first second ihFirst ihSecond =>
      rcases List.mem_append.mp found with here | there
      · exact ihFirst here
      · exact ihSecond there
  | opt inner ih =>
      rcases List.mem_append.mp found with here | none
      · exact ih here
      · rw [List.mem_singleton.mp none]
  | star inner ih =>
      refine rounds_induction (P := fun s => s.2 <:+ text) (fun s s' before step => ?_) List.suffix_rfl found
      exact (ih (List.mem_of_mem_filter step)).trans before
  | group name inner ih =>
      obtain ⟨inside, here, rfl⟩ := List.mem_map.mp found
      exact ih (r := inside) here
  | ahead inner =>
      rw [run_ahead, Option.mem_toList, Option.map_eq_some_iff] at found
      obtain ⟨_, _, rfl⟩ := found
      exact List.suffix_rfl
  | stop =>
      rw [run_stop] at found
      split at found
      · rw [List.mem_singleton.mp found]
      · cases found

theorem first_consumed (found : p.first text = some r) : consumed text r.2 ++ r.2 = text := by
  obtain ⟨before, whole⟩ := run_suffix (List.mem_of_mem_head? found)
  have length := congrArg List.length whole
  rw [List.length_append] at length
  rw [consumed, ← whole, List.length_append, Nat.add_sub_cancel, List.take_left]

end Pattern

end Regex
