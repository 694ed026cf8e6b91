import Mathlib.Data.List.Chain
import Tase.Tsx.Machine

/-! Speculation on a sequential program. What a transaction does is thrown away by an abort and done
again, so the states that a run goes through are not those of the program one after the other. The
durable ones are: they are the stations of a single run. -/

namespace Tsx

variable {σ τ : Type}

structure Showing (σ τ : Type) where
  began : σ → τ
  committed : σ → τ
  left : σ → τ

namespace Showing

def event (S : Showing σ τ) : Event σ → Option τ
  | .began s => some (S.began s)
  | .committed s => some (S.committed s)
  | .left s => some (S.left s)
  | .aborted _ | .xaborted _ _ | .returned _ => none

/-- The durable states, the latest first, after the one that everything began with. -/
def stations (S : Showing σ τ) (first : τ) (log : List (Event σ)) : List τ :=
  log.filterMap S.event ++ [first]

end Showing

def Visits (next : τ → τ → Prop) (stations : List τ) : Prop :=
  stations.IsChain fun later earlier => Relation.ReflTransGen next earlier later

namespace Visits

variable {next : τ → τ → Prop} {t u : τ} {stations : List τ}

theorem singleton : Visits next [t] := List.isChain_singleton t

theorem tail (visits : Visits next (t :: stations)) : Visits next stations :=
  List.IsChain.tail visits

theorem onward (visits : Visits next (t :: stations)) (run : Relation.ReflTransGen next t u) :
    Visits next (u :: stations) := by
  cases stations with
  | nil => exact singleton
  | cons last stations =>
      obtain ⟨since, earlier⟩ := List.isChain_cons_cons.mp visits
      exact List.isChain_cons_cons.mpr ⟨since.trans run, earlier⟩

theorem again (visits : Visits next (t :: stations)) : Visits next (t :: t :: stations) :=
  List.isChain_cons_cons.mpr ⟨.refl, visits⟩

theorem back (visits : Visits next stations) (last : stations.head? = some t) :
    Visits next (t :: stations) := by
  cases stations with
  | nil => cases last
  | cons latest stations =>
      cases last
      exact visits.again

end Visits

section

variable {S : Showing σ τ} {first t : τ} {log : List (Event σ)} {e : Event σ}

theorem Showing.stations_silent (silent : S.event e = none) :
    S.stations first (e :: log) = S.stations first log := by
  simp [stations, silent]

theorem Showing.stations_durable (shown : S.event e = some t) :
    S.stations first (e :: log) = t :: S.stations first log := by
  simp [stations, shown]

end

/-! A machine below that does what the program does. -/

section

variable {ρ : Type} {next : τ → τ → Prop} {step : ρ → ρ → Prop} {look : ρ → τ} {stuck : ρ → Prop}

def Simulates (step : ρ → ρ → Prop) (look : ρ → τ) (stuck : ρ → Prop) (next : τ → τ → Prop) : Prop :=
  ∀ t t', next t t' → ∀ s, look s = t → ∃ s', Relation.ReflTransGen step s s' ∧ (look s' = t' ∨ stuck s')

theorem Simulates.run (simulates : Simulates step look stuck next) {t t' : τ}
    (run : Relation.ReflTransGen next t t') {s : ρ} (same : look s = t) :
    ∃ s', Relation.ReflTransGen step s s' ∧ (look s' = t' ∨ stuck s') := by
  induction run with
  | refl => exact ⟨s, .refl, .inl same⟩
  | tail _ last ih =>
      obtain ⟨s', before, here | fault⟩ := ih
      · obtain ⟨s'', after, outcome⟩ := simulates _ _ last s' here
        exact ⟨s'', before.trans after, outcome⟩
      · exact ⟨s', before, .inr fault⟩

end

structure Model.Within (M M' : Model σ) : Prop where
  fallback : M.fallback = M'.fallback
  deliver : M.deliver = M'.deliver
  signals : ∀ {status}, M.signals status → M'.signals status
  enters : ∀ {s c s'}, M.enters s c s' → M'.enters s c s'
  resumes : ∀ {s c s'}, M.resumes s c s' → M'.resumes s c s'

theorem Step.within {M M' : Model σ} (within : M.Within M') {c c' : Config σ} (step : Step M c c') :
    Step M' c c' := by
  have rolls (v : View σ) : v.roll M = v.roll M' := by
    funext status e start
    rw [View.roll, View.roll, within.deliver]
  cases step with
  | op => exact .op
  | branch => exact .branch
  | xbegin => exact .xbegin
  | xend ended => exact .xend ended
  | xabort inside =>
      rw [rolls, within.fallback]
      exact .xabort inside
  | xabortOutside outside => exact .xabortOutside outside
  | ret => exact .ret
  | leave => exact .leave
  | abort inside signal =>
      rw [rolls, within.fallback]
      exact .abort inside (within.signals signal)
  | enter enters => exact .enter (within.enters enters)
  | resume resumes => exact .resume (within.resumes resumes)

theorem Steps.within {M M' : Model σ} (within : M.Within M') {c c' : Config σ} (steps : Steps M c c') :
    Steps M' c c' := Relation.ReflTransGen.mono (fun _ _ => Step.within within) _ _ steps

end Tsx
