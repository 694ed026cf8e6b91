import Mathlib.Data.BitVec
import Mathlib.Logic.Relation

/-! Code that opens, commits and aborts hardware transactions around stretches of other code. An
abort throws the state back to the outermost `xbegin` and continues in the fallback code. -/

namespace Tsx

inductive Abort
  | explicit (code : BitVec 8)
  | hardware (status : BitVec 32)

def Abort.status : Abort → BitVec 32
  | .explicit code => code.setWidth 32 <<< 24 ||| 1
  | .hardware status => status

/-- Code without loops. It ends by giving control to the body, or by leaving. -/
inductive Code (σ : Type)
  | op (effect : σ → σ) (rest : Code σ)
  | branch (test : σ → Bool) (taken rest : Code σ)
  | xbegin (rest : Code σ)
  | xend (rest : Code σ)
  | xabort (code : BitVec 8) (rest : Code σ)
  | ret
  | leave

structure Transaction (σ : Type) where
  start : σ
  nested : Nat

inductive Event (σ : Type)
  | began (s : σ)
  | committed (s : σ)
  | aborted (status : BitVec 32)
  | xaborted (code : BitVec 8) (now : σ)
  | returned (s : σ)
  | left (s : σ)

inductive Place (σ : Type)
  | code (c : Code σ)
  | body
  | outside

/-- The latest event comes first. -/
structure View (σ : Type) where
  core : σ
  tran : Option (Transaction σ)
  log : List (Event σ)

structure Config (σ : Type) where
  place : Place σ
  view : View σ

structure Model (σ : Type) where
  fallback : Code σ
  /-- Putting the status of an abort into the restored state. -/
  deliver : BitVec 32 → σ → σ
  /-- The statuses that an abort without `xabort` can have. -/
  signals : BitVec 32 → Prop
  /-- The body runs for a while and enters the code. -/
  enters : σ → Code σ → σ → Prop
  /-- The code is entered from outside. -/
  resumes : σ → Code σ → σ → Prop

variable {σ : Type}

def Event.beginning : Event σ → Option σ
  | .began s => some s
  | _ => none

def returns : List (Event σ) → Nat
  | [] => 0
  | .began _ :: _ => 0
  | .returned _ :: log => returns log + 1
  | _ :: log => returns log

namespace View

def withCore (v : View σ) (s : σ) : View σ := { v with core := s }

def note (v : View σ) (e : Event σ) : View σ := { v with log := e :: v.log }

def xbegin (v : View σ) : View σ :=
  match v.tran with
  | none => { v with tran := some ⟨v.core, 0⟩, log := .began v.core :: v.log }
  | some t => { v with tran := some { t with nested := t.nested + 1 }, log := .began v.core :: v.log }

def xend (v : View σ) : Option (View σ) :=
  match v.tran with
  | none => none
  | some ⟨_, 0⟩ => some { v with tran := none, log := .committed v.core :: v.log }
  | some ⟨start, n + 1⟩ => some { v with tran := some ⟨start, n⟩ }

def roll (M : Model σ) (v : View σ) (status : BitVec 32) (e : Event σ) (start : σ) : View σ :=
  ⟨M.deliver status start, none, e :: v.log⟩

end View

def View.Starts (P : σ → Prop) (v : View σ) : Prop := ∀ t, v.tran = some t → P t.start

theorem View.starts_xbegin {P : σ → Prop} {v : View σ} (core : P v.core) (starts : v.Starts P) :
    v.xbegin.Starts P := by
  intro t inside
  unfold xbegin at inside
  split at inside
  · cases inside
    exact core
  · rename_i u found
    cases inside
    exact starts u found

theorem View.starts_xend {P : σ → Prop} {v v' : View σ} (ended : v.xend = some v') (starts : v.Starts P) :
    v'.Starts P := by
  intro t inside
  unfold xend at ended
  split at ended
  · cases ended
  · cases ended
    cases inside
  · rename_i start n found
    cases ended
    cases inside
    exact starts ⟨start, n + 1⟩ found

theorem View.xend_core {v v' : View σ} (ended : v.xend = some v') :
    v'.core = v.core ∧ (v'.log = v.log ∨ v'.log = .committed v.core :: v.log) := by
  unfold xend at ended
  split at ended
  · cases ended
  · cases ended
    exact ⟨rfl, .inr rfl⟩
  · cases ended
    exact ⟨rfl, .inl rfl⟩

theorem View.xbegin_open (v : View σ) : ∃ t, v.xbegin.tran = some t := by
  unfold xbegin
  split
  · exact ⟨_, rfl⟩
  · exact ⟨_, rfl⟩

theorem View.xbegin_log (v : View σ) : v.xbegin.log = .began v.core :: v.log := by
  unfold xbegin
  split <;> rfl

theorem View.xbegin_core (v : View σ) : v.xbegin.core = v.core := by
  unfold xbegin
  split <;> rfl

inductive Step (M : Model σ) : Config σ → Config σ → Prop
  | op {effect : σ → σ} {rest : Code σ} {v : View σ} :
      Step M ⟨.code (.op effect rest), v⟩ ⟨.code rest, v.withCore (effect v.core)⟩
  | branch {test : σ → Bool} {taken rest : Code σ} {v : View σ} :
      Step M ⟨.code (.branch test taken rest), v⟩ ⟨.code (if test v.core then taken else rest), v⟩
  | xbegin {rest : Code σ} {v : View σ} : Step M ⟨.code (.xbegin rest), v⟩ ⟨.code rest, v.xbegin⟩
  | xend {rest : Code σ} {v v' : View σ} (ended : v.xend = some v') :
      Step M ⟨.code (.xend rest), v⟩ ⟨.code rest, v'⟩
  | xabort {code : BitVec 8} {rest : Code σ} {v : View σ} {t : Transaction σ} (inside : v.tran = some t) :
      Step M ⟨.code (.xabort code rest), v⟩
        ⟨.code M.fallback, v.roll M (Abort.explicit code).status (.xaborted code v.core) t.start⟩
  | xabortOutside {code : BitVec 8} {rest : Code σ} {v : View σ} (outside : v.tran = none) :
      Step M ⟨.code (.xabort code rest), v⟩ ⟨.code rest, v⟩
  | ret {v : View σ} : Step M ⟨.code .ret, v⟩ ⟨.body, v.note (.returned v.core)⟩
  | leave {v : View σ} : Step M ⟨.code .leave, v⟩ ⟨.outside, v.note (.left v.core)⟩
  | abort {p : Place σ} {v : View σ} {t : Transaction σ} {status : BitVec 32} (inside : v.tran = some t)
      (signal : M.signals status) :
      Step M ⟨p, v⟩
        ⟨.code M.fallback, v.roll M (Abort.hardware status).status (.aborted status) t.start⟩
  | enter {v : View σ} {c : Code σ} {s : σ} (enters : M.enters v.core c s) :
      Step M ⟨.body, v⟩ ⟨.code c, v.withCore s⟩
  | resume {v : View σ} {c : Code σ} {s : σ} (resumes : M.resumes v.core c s) :
      Step M ⟨.outside, v⟩ ⟨.code c, v.withCore s⟩

abbrev Steps (M : Model σ) : Config σ → Config σ → Prop := Relation.ReflTransGen (Step M)

namespace Code

def ops (effects : List (σ → σ)) (rest : Code σ) : Code σ := effects.foldr .op rest

def advance : Code σ → σ → Code σ × σ
  | .op effect rest, s => rest.advance (effect s)
  | .branch test taken rest, s => if test s then taken.advance s else rest.advance s
  | c, s => (c, s)

@[simp] theorem advance_ops (effects : List (σ → σ)) (rest : Code σ) (s : σ) :
    (ops effects rest).advance s = rest.advance (effects.foldl (fun s effect => effect s) s) := by
  induction effects generalizing s with
  | nil => rfl
  | cons effect effects ih => exact ih (effect s)

theorem advance_steps (M : Model σ) (c : Code σ) (v : View σ) :
    Steps M ⟨.code c, v⟩ ⟨.code (c.advance v.core).1, v.withCore (c.advance v.core).2⟩ := by
  induction c generalizing v with
  | op effect rest ih => exact .head .op (ih (v.withCore (effect v.core)))
  | branch test taken rest ihTaken ihRest =>
      refine .head .branch ?_
      simp only [advance]
      split
      · exact ihTaken v
      · exact ihRest v
  | _ => exact .refl

end Code

/-- What is to hold at the places where the code stops, at every commit, and where an abort sends
control. -/
structure Claims (σ : Type) where
  body : View σ → Prop
  outside : View σ → Prop
  fallback : View σ → Prop
  commit : View σ → Prop

def Recovers (M : Model σ) (Q : Claims σ) (v : View σ) : Prop :=
  ∀ t, v.tran = some t → ∀ status, M.signals status →
    Q.fallback (v.roll M (Abort.hardware status).status (.aborted status) t.start)

/-- From here the code meets the claims, whatever happens. -/
def Code.wlp (M : Model σ) (Q : Claims σ) : Code σ → View σ → Prop
  | .op effect rest, v => rest.wlp M Q (v.withCore (effect v.core))
  | .branch test taken rest, v => if test v.core then taken.wlp M Q v else rest.wlp M Q v
  | .xbegin rest, v => Recovers M Q v.xbegin ∧ rest.wlp M Q v.xbegin
  | .xend rest, v => Q.commit v ∧ ∀ v', v.xend = some v' → rest.wlp M Q v'
  | .xabort code rest, v =>
      (v.tran = none → rest.wlp M Q v) ∧ ∀ t, v.tran = some t →
        Q.fallback (v.roll M (Abort.explicit code).status (.xaborted code v.core) t.start)
  | .ret, v => Recovers M Q (v.note (.returned v.core)) ∧ Q.body (v.note (.returned v.core))
  | .leave, v => Recovers M Q (v.note (.left v.core)) ∧ Q.outside (v.note (.left v.core))

theorem Code.wlp_advance {M : Model σ} {Q : Claims σ} {c : Code σ} {v : View σ} :
    c.wlp M Q v ↔ (c.advance v.core).1.wlp M Q (v.withCore (c.advance v.core).2) := by
  induction c generalizing v with
  | op effect rest ih => exact ih
  | branch test taken rest ihTaken ihRest =>
      simp only [wlp, advance]
      split
      · exact ihTaken
      · exact ihRest
  | _ => exact Iff.rfl

def Invariant (M : Model σ) (Q : Claims σ) (c : Config σ) : Prop :=
  Recovers M Q c.view ∧
    match c.place with
    | .code code => code.wlp M Q c.view
    | .body => Q.body c.view
    | .outside => Q.outside c.view

section

variable {M : Model σ} {Q : Claims σ}

theorem recovers_congr {v v' : View σ} (start : v'.tran.map (·.start) = v.tran.map (·.start))
    (log : v'.log = v.log) (recovers : Recovers M Q v) : Recovers M Q v' := by
  intro t inside status signal
  rw [inside] at start
  obtain ⟨u, found, same⟩ := Option.map_eq_some_iff.mp start.symm
  have there := recovers u found status signal
  have starts : u.start = t.start := same
  simp only [View.roll, log] at there ⊢
  rwa [← starts]

theorem recovers_closed {v : View σ} (closed : v.tran = none) : Recovers M Q v := by
  intro t inside
  rw [closed] at inside
  cases inside

theorem recovers_xend {v v' : View σ} (ended : v.xend = some v') (recovers : Recovers M Q v) :
    Recovers M Q v' := by
  unfold View.xend at ended
  split at ended
  · cases ended
  · cases ended
    exact recovers_closed rfl
  · rename_i inside
    cases ended
    exact recovers_congr (v := v) (by simp [inside]) rfl recovers

theorem Invariant.step (fallback : ∀ v, Q.fallback v → v.tran = none → M.fallback.wlp M Q v)
    (enter : ∀ v c s, Q.body v → Recovers M Q v → M.enters v.core c s → c.wlp M Q (v.withCore s))
    (resume : ∀ v c s, Q.outside v → M.resumes v.core c s → c.wlp M Q (v.withCore s))
    {c c' : Config σ} (step : Step M c c') (invariant : Invariant M Q c) : Invariant M Q c' := by
  obtain ⟨recovers, here⟩ := invariant
  cases step with
  | op => exact ⟨recovers_congr rfl rfl recovers, here⟩
  | @branch test taken rest v =>
      refine ⟨recovers, ?_⟩
      simp only [Code.wlp] at here
      change Code.wlp M Q (if test v.core then taken else rest) v
      split <;> rename_i outcome
      · rwa [if_pos outcome] at here
      · rwa [if_neg outcome] at here
  | xbegin => exact here
  | xend ended => exact ⟨recovers_xend ended recovers, here.2 _ ended⟩
  | xabort inside => exact ⟨recovers_closed rfl, fallback _ (here.2 _ inside) rfl⟩
  | xabortOutside outside => exact ⟨recovers, here.1 outside⟩
  | ret => exact here
  | leave => exact here
  | abort inside signal => exact ⟨recovers_closed rfl, fallback _ (recovers _ inside _ signal) rfl⟩
  | enter enters => exact ⟨recovers_congr rfl rfl recovers, enter _ _ _ here recovers enters⟩
  | resume resumes => exact ⟨recovers_congr rfl rfl recovers, resume _ _ _ here resumes⟩

theorem Invariant.steps (fallback : ∀ v, Q.fallback v → v.tran = none → M.fallback.wlp M Q v)
    (enter : ∀ v c s, Q.body v → Recovers M Q v → M.enters v.core c s → c.wlp M Q (v.withCore s))
    (resume : ∀ v c s, Q.outside v → M.resumes v.core c s → c.wlp M Q (v.withCore s))
    {c c' : Config σ} (steps : Steps M c c') (invariant : Invariant M Q c) : Invariant M Q c' := by
  induction steps with
  | refl => exact invariant
  | tail _ step ih => exact ih.step fallback enter resume step

end

end Tsx
