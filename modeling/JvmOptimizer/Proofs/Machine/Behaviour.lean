import JvmOptimizer.Proofs.Machine.Basic
import Mathlib.Logic.Relation

/-!
# Behaviour

What can be seen of a run: how it ends, if it does, and what it puts out. A run
that never ends is seen through all the outputs that it comes to.

Two programs behave alike if a **simulation** leads from one to the other: each
step of the first is matched by a step of the second, or by none at all, and
then something has to get smaller. Since a machine has one step at most to
make, a simulation in this direction is enough for both: the first program ends
or goes on, and whatever it does it forces on the second.
-/

namespace JvmOptimizer.Machine

/-! ### Runs of a machine -/

section Runs

variable {C D R O : Type}

/-- One running step leads from the first state to the second. -/
def Steps (step : C → Next C R) (c c' : C) : Prop := step c = .running c'

/-- Finitely many running steps lead from the first state to the second. -/
abbrev Reaches (step : C → Next C R) : C → C → Prop := Relation.ReflTransGen (Steps step)

/-- The run from a state ends with a result. -/
def Halts (step : C → Next C R) (c : C) (r : R) : Prop :=
  ∃ last, Reaches step c last ∧ step last = .halted r

/-- The run from a state never ends. -/
def Diverges (step : C → Next C R) (c : C) : Prop :=
  ∀ c', Reaches step c c' → ∃ c'', step c' = .running c''

/-- The run from a state does not get stuck. -/
def Safe (step : C → Next C R) (c : C) : Prop := ∀ c', Reaches step c c' → step c' ≠ .stuck

variable {step : C → Next C R} {c c' : C} {r r' : R}

theorem Steps.unique {c₁ c₂ : C} (h₁ : Steps step c c₁) (h₂ : Steps step c c₂) : c₁ = c₂ := by
  have h : Next.running c₁ = Next.running (R := R) c₂ := h₁.symm.trans h₂
  injection h

/-- A run that ends comes by every state that it can reach. -/
theorem Halts.of_reaches (h : Halts step c r) (hr : Reaches step c c') : Halts step c' r := by
  obtain ⟨last, hlast, hr'⟩ := h
  induction hr using Relation.ReflTransGen.head_induction_on with
  | refl => exact ⟨last, hlast, hr'⟩
  | head hs _ ih =>
      apply ih
      rcases Relation.ReflTransGen.cases_head hlast with rfl | ⟨d, hd, hlast⟩
      · rw [Steps, hr'] at hs
        cases hs
      · rwa [hs.unique hd]

theorem Halts.unique (h : Halts step c r) (h' : Halts step c r') : r = r' := by
  obtain ⟨last, hlast, hr'⟩ := h'
  obtain ⟨last', hlast', hr⟩ := h.of_reaches hlast
  rcases Relation.ReflTransGen.cases_head hlast' with rfl | ⟨d, hd, -⟩
  · have := hr.symm.trans hr'
    injection this
  · rw [Steps, hr'] at hd
    cases hd

/-- A run ends or goes on for ever, and not both. -/
theorem Halts.not_diverges (h : Halts step c r) : ¬ Diverges step c := by
  rintro hd
  obtain ⟨last, hlast, hr⟩ := h
  obtain ⟨c'', hc''⟩ := hd last hlast
  rw [hr] at hc''
  cases hc''

theorem Safe.of_reaches (h : Safe step c) (hr : Reaches step c c') : Safe step c' :=
  fun c'' hc'' => h c'' (hr.trans hc'')

/-- A run that does not get stuck ends or never does. -/
theorem Safe.halts_or_diverges (h : Safe step c) : (∃ r, Halts step c r) ∨ Diverges step c := by
  by_cases hd : Diverges step c
  · exact .inr hd
  · simp only [Diverges, Classical.not_forall] at hd
    obtain ⟨c', hc', hn⟩ := hd
    cases hs : step c' with
    | running c'' => exact absurd ⟨c'', hs⟩ hn
    | halted r => exact .inl ⟨r, c', hc', hs⟩
    | stuck => exact absurd hs (h c' hc')

end Runs

/-! ### Simulations -/

section Simulations

variable {C D R : Type}

/-- Every step of the first machine is matched by the second. A step that the
second one does not take makes `rank` smaller. -/
structure Simulation (step : C → Next C R) (step' : D → Next D R) (rel : C → D → Prop)
    (rank : C → Nat) : Prop where
  running : ∀ {c d c'}, rel c d → step c = .running c' →
    (∃ d', step' d = .running d' ∧ rel c' d') ∨ (rel c' d ∧ rank c' < rank c)
  halted : ∀ {c d r}, rel c d → step c = .halted r → step' d = .halted r

namespace Simulation

variable {step : C → Next C R} {step' : D → Next D R} {rel : C → D → Prop} {rank : C → Nat}
  (sim : Simulation step step' rel rank) {c : C} {d : D}

include sim

/-- What the first machine reaches, the second reaches as well. -/
theorem reaches {c' : C} (h : rel c d) (hr : Reaches step c c') :
    ∃ d', Reaches step' d d' ∧ rel c' d' := by
  induction hr with
  | refl => exact ⟨d, .refl, h⟩
  | tail _ hs ih =>
      obtain ⟨d₁, hd₁, h₁⟩ := ih
      rcases sim.running h₁ hs with ⟨d', hd', h'⟩ | ⟨h', -⟩
      · exact ⟨d', hd₁.tail hd', h'⟩
      · exact ⟨d₁, hd₁, h'⟩

theorem halts {r : R} (h : rel c d) (hh : Halts step c r) : Halts step' d r := by
  obtain ⟨last, hlast, hr⟩ := hh
  obtain ⟨d', hd', h'⟩ := sim.reaches h hlast
  exact ⟨d', hd', sim.halted h' hr⟩

/-- The first machine cannot go on forever without the second: after some steps
of the first, both halt or both take a step. -/
theorem catches_up (h : rel c d) (hs : Safe step c) :
    ∃ c', Reaches step c c' ∧ rel c' d ∧
      ((∃ r, step c' = .halted r ∧ step' d = .halted r) ∨
        ∃ c'' d'', step c' = .running c'' ∧ step' d = .running d'' ∧ rel c'' d'') := by
  -- Induction on the rank, which bounds the steps that the second machine skips.
  induction hn : rank c using Nat.strongRecOn generalizing c with
  | _ n ih =>
      cases hc : step c with
      | stuck => exact absurd hc (hs c .refl)
      | halted r => exact ⟨c, .refl, h, .inl ⟨r, hc, sim.halted h hc⟩⟩
      | running c₁ =>
          rcases sim.running h hc with ⟨d', hd', h'⟩ | ⟨h', hlt⟩
          · exact ⟨c, .refl, h, .inr ⟨c₁, d', hc, hd', h'⟩⟩
          · have hr : Reaches step c c₁ := .single hc
            obtain ⟨c', hc', hrest⟩ := ih _ (hn ▸ hlt) h' (hs.of_reaches hr) rfl
            exact ⟨c', hr.trans hc', hrest⟩

/-- What the second machine reaches, the first reaches as well. -/
theorem reaches_back {d' : D} (h : rel c d) (hs : Safe step c) (hr : Reaches step' d d') :
    ∃ c', Reaches step c c' ∧ rel c' d' := by
  induction hr with
  | refl => exact ⟨c, .refl, h⟩
  | tail _ hstep ih =>
      obtain ⟨c₁, hc₁, h₁⟩ := ih
      obtain ⟨c₂, hc₂, -, ⟨r, -, hr⟩ | ⟨c₃, d₃, hc₃, hd₃, h₃⟩⟩ :=
        sim.catches_up h₁ (hs.of_reaches hc₁)
      · rw [Steps, hr] at hstep
        cases hstep
      · obtain rfl := Steps.unique hstep hd₃
        exact ⟨c₃, (hc₁.trans hc₂).tail hc₃, h₃⟩

/-- What simulates a safe run is safe: it is stuck nowhere, as it would have to be
stuck where the first one goes on. -/
theorem safe (h : rel c d) (hs : Safe step c) : Safe step' d := by
  intro d' hd' hstuck
  obtain ⟨c₁, hc₁, h₁⟩ := sim.reaches_back h hs hd'
  obtain ⟨c₂, -, -, ⟨r, -, hr⟩ | ⟨c₃, d₃, -, hd₃, -⟩⟩ := sim.catches_up h₁ (hs.of_reaches hc₁)
  · rw [hr] at hstuck
    cases hstuck
  · rw [hd₃] at hstuck
    cases hstuck

/-- Standing still lowers the measure, so endless steps on one side are endless on
the other. -/
theorem diverges (h : rel c d) (hs : Safe step c) (hd : Diverges step c) :
    Diverges step' d := by
  intro d' hd'
  obtain ⟨c₁, hc₁, h₁⟩ := sim.reaches_back h hs hd'
  obtain ⟨c₂, hc₂, -, ⟨r, hr, -⟩ | ⟨c₃, d₃, -, hd₃, -⟩⟩ :=
    sim.catches_up h₁ (hs.of_reaches hc₁)
  · obtain ⟨c₃, hc₃⟩ := hd c₂ (hc₁.trans hc₂)
    rw [hr] at hc₃
    cases hc₃
  · exact ⟨d₃, hd₃⟩

/-- On safe runs the two sides halt alike. Backwards this needs that steps are
deterministic. -/
theorem halts_iff {r : R} (h : rel c d) (hs : Safe step c) :
    Halts step c r ↔ Halts step' d r := by
  refine ⟨sim.halts h, fun hd => ?_⟩
  rcases hs.halts_or_diverges with ⟨r', hr'⟩ | hdiv
  · rwa [hd.unique (sim.halts h hr')]
  · exact absurd (sim.diverges h hs hdiv) hd.not_diverges

theorem diverges_iff (h : rel c d) (hs : Safe step c) :
    Diverges step c ↔ Diverges step' d := by
  refine ⟨sim.diverges h hs, fun hd => ?_⟩
  rcases hs.halts_or_diverges with ⟨r, hr⟩ | hdiv
  · exact absurd hd (sim.halts h hr).not_diverges
  · exact hdiv

end Simulation

end Simulations

/-! ### Programs that behave alike -/

section Programs

variable {Ref Heap Event : Type}

/-- An output that the run of a program comes to. -/
def Emits (env : Environment Ref Heap Event) (p : Program) (c : Config Ref Heap Event)
    (output : List Event) : Prop :=
  ∃ c', Reaches (step env p) c c' ∧ c'.output = output

/-- Started with the same variables and heap, two programs end alike with the
same output and heap, or both go on forever, and come to the same outputs on the
way. -/
structure SameBehaviour (env : Environment Ref Heap Event) (p q : Program)
    (vars : Variables Ref) (heap : Heap) : Prop where
  halts : ∀ r, Halts (step env p) (p.initial vars heap) r ↔
    Halts (step env q) (q.initial vars heap) r
  diverges : Diverges (step env p) (p.initial vars heap) ↔
    Diverges (step env q) (q.initial vars heap)
  emits : ∀ output, Emits env p (p.initial vars heap) output ↔
    Emits env q (q.initial vars heap) output

variable {env : Environment Ref Heap Event} {p q r : Program} {vars : Variables Ref}
  {heap : Heap}

theorem SameBehaviour.refl : SameBehaviour env p p vars heap :=
  ⟨fun _ => .rfl, .rfl, fun _ => .rfl⟩

theorem SameBehaviour.trans (h : SameBehaviour env p q vars heap)
    (h' : SameBehaviour env q r vars heap) : SameBehaviour env p r vars heap :=
  ⟨fun r => (h.halts r).trans (h'.halts r), h.diverges.trans h'.diverges,
    fun o => (h.emits o).trans (h'.emits o)⟩

/-- The run of a program from given variables and heap does not get stuck. -/
def SafeFrom (env : Environment Ref Heap Event) (p : Program) (vars : Variables Ref)
    (heap : Heap) : Prop :=
  Safe (step env p) (p.initial vars heap)

/-- Started with given variables and heap, a program never gets stuck, and
whenever control comes to the same instruction the operand stack holds values of
the same kinds. -/
structure TypeConsistent (env : Environment Ref Heap Event) (p : Program)
    (vars : Variables Ref) (heap : Heap) : Prop where
  safe : SafeFrom env p vars heap
  shapes : ∀ {c d}, Reaches (step env p) (p.initial vars heap) c →
    Reaches (step env p) (p.initial vars heap) d → c.pc = d.pc →
    c.stack.map Datum.kind = d.stack.map Datum.kind

/-- **Simulation gives the same behaviour**, and a program that is simulated by
another one without getting stuck keeps that one from getting stuck. -/
theorem Simulation.sameBehaviour {rel : Config Ref Heap Event → Config Ref Heap Event → Prop}
    {rank : Config Ref Heap Event → Nat}
    (sim : Simulation (step env p) (step env q) rel rank)
    (hout : ∀ {c d}, rel c d → c.output = d.output)
    (hinit : rel (p.initial vars heap) (q.initial vars heap))
    (hs : SafeFrom env p vars heap) :
    SafeFrom env q vars heap ∧ SameBehaviour env p q vars heap := by
  refine ⟨sim.safe hinit hs, fun r => sim.halts_iff hinit hs, sim.diverges_iff hinit hs, ?_⟩
  intro output
  constructor
  · rintro ⟨c, hc, rfl⟩
    obtain ⟨d, hd, h⟩ := sim.reaches hinit hc
    exact ⟨d, hd, (hout h).symm⟩
  · rintro ⟨d, hd, rfl⟩
    obtain ⟨c, hc, h⟩ := sim.reaches_back hinit hs hd
    exact ⟨c, hc, hout h⟩

/-! ### Watching a run -/

/-- The states that a run comes by in its first steps. -/
def trace (env : Environment Ref Heap Event) (p : Program) :
    Nat → Config Ref Heap Event → List (Config Ref Heap Event)
  | 0, _ => []
  | k + 1, c =>
      c :: match step env p c with
        | .running c' => trace env p k c'
        | _ => []

/-- Does a run end within so many steps? -/
def endsIn (env : Environment Ref Heap Event) (p : Program) :
    Nat → Config Ref Heap Event → Bool
  | 0, _ => false
  | k + 1, c =>
      match step env p c with
      | .running c' => endsIn env p k c'
      | .halted _ => true
      | .stuck => false

theorem mem_trace {k : Nat} {c d : Config Ref Heap Event} (h : endsIn env p k c)
    (hr : Reaches (step env p) c d) : d ∈ trace env p k c ∧ step env p d ≠ .stuck := by
  induction k generalizing c with
  | zero => cases h
  | succ k ih =>
      rcases Relation.ReflTransGen.cases_head hr with rfl | ⟨c', hc', hr⟩
      · refine ⟨List.mem_cons_self, fun hstuck => ?_⟩
        simp [endsIn, hstuck] at h
      · have hstep : step env p c = .running c' := hc'
        simp only [endsIn, hstep] at h
        obtain ⟨hmem, hns⟩ := ih h hr
        refine ⟨List.mem_cons_of_mem _ ?_, hns⟩
        simpa only [hstep] using hmem

theorem reaches_of_mem_trace {k : Nat} {c d : Config Ref Heap Event}
    (h : d ∈ trace env p k c) : Reaches (step env p) c d := by
  induction k generalizing c with
  | zero => cases h
  | succ k ih =>
      rcases List.mem_cons.1 h with rfl | h
      · exact .refl
      · cases hs : step env p c with
        | running c' =>
            rw [hs] at h
            exact .head hs (ih h)
        | halted r | stuck =>
            rw [hs] at h
            cases h

/-- A run that ends can be watched for its consistency. -/
theorem TypeConsistent.of_trace (k : Nat) (h : endsIn env p k (p.initial vars heap))
    (hs : ∀ c ∈ trace env p k (p.initial vars heap), ∀ d ∈ trace env p k (p.initial vars heap),
      c.pc = d.pc → c.stack.map Datum.kind = d.stack.map Datum.kind) :
    TypeConsistent env p vars heap where
  safe := fun _ hr => (mem_trace h hr).2
  shapes := fun hc hd => hs _ (mem_trace h hc).1 _ (mem_trace h hd).1

end Programs

/-- A world in which instructions that are carried verbatim do nothing. -/
def Environment.quiet : Environment Unit Unit Unit where
  effect _ _ stack _ := .continues stack () []
  divisionByZero _ := ((), ())
  catches _ _ _ := true
  isNull _ := false
  isSame _ _ := true

end JvmOptimizer.Machine
