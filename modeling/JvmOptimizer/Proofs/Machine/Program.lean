import JvmOptimizer.Proofs.CodeStream.Method
import JvmOptimizer.Proofs.Machine.Behaviour
import Mathlib.Data.List.Find

/-!
# Methods and streams as programs

A method runs by position and a stream by name: control passes on to the next
live node. A program **embeds** into another one if its instructions are found
there under other names; then the two do the same. Every stream embeds into its
method by ranks, so what holds of a stream holds of the method it becomes.
-/

namespace JvmOptimizer

open Machine

variable {τ σ Ref Heap Event : Type}

/-- A method body as a program. -/
def Method.program (m : Method) : Program where
  fetch n := m.code[n]?
  next n := n + 1
  start := 0
  regions := m.handlers.map fun h =>
    ⟨fun n => decide (h.start ≤ n) && decide (n < h.stop), h.entry, h.catchType⟩

/-- A stream as a program. -/
def CodeStream.program (s : CodeStream) : Program where
  fetch n := if s.isLive n then s.instruction? n else none
  next n := s.ahead (n + 1)
  start := s.ahead 0
  regions := s.handlers.map fun r =>
    ⟨fun n => decide (r.start ≤ n) && r.stop.all (n < ·), r.entry, r.catchType⟩

namespace Machine

/-! ### Replaced targets -/

theorem select_map (f : τ → σ) (fallback : τ) (cases : SwitchTable τ) (key : Int32) :
    select (f fallback) (cases.map f) key = f (select fallback cases key) := by
  cases cases with
  | table low high targets =>
      simp only [select, SwitchTable.map, List.getElem?_map]
      split
      · cases targets[(key.toInt - low.toInt).toNat]? <;> rfl
      · rfl
  | lookup pairs =>
      simp only [select, SwitchTable.map]
      induction pairs with
      | nil => rfl
      | cons p pairs ih =>
          obtain ⟨k, t⟩ := p
          cases hk : key == k with
          | true => simp [List.lookup_cons, hk]
          | false => simpa [List.lookup_cons, hk] using ih

@[simp]
theorem computation?_mapTargets (f : τ → σ) (insn : Instruction τ) :
    computation? (insn.mapTargets f) = computation? insn := by
  cases insn <;> rfl

/-- An instruction with other targets does the same and goes there. -/
theorem execute_mapTargets (env : Environment Ref Heap Event) (f : τ → σ) (insn : Instruction τ)
    (stack : List (Datum Ref)) (vars : Variables Ref) (heap : Heap) :
    execute env (insn.mapTargets f) stack vars heap =
      (execute env insn stack vars heap).mapTarget f := by
  have hcompute : ∀ c : Computation, (compute env c stack vars heap : Action σ Ref Heap Event) =
      (compute env c stack vars heap : Action τ Ref Heap Event).mapTarget f := by
    intro c
    unfold compute
    split
    · rfl
    · split <;> rfl
  cases insn with
  | const v => rfl
  | load kind index =>
      simp only [execute, Instruction.mapTargets]
      split
      · split <;> rfl
      · rfl
  | store kind index =>
      simp only [execute, Instruction.mapTargets]
      split
      · split <;> rfl
      · rfl
  | increment index delta =>
      simp only [execute, Instruction.mapTargets]
      split <;> rfl
  | arith op kind => exact hcompute _
  | compare c => exact hcompute _
  | convert source target => exact hcompute _
  | branch condition target =>
      simp only [execute, Instruction.mapTargets]
      split <;> rfl
  | jump target => rfl
  | switch fallback cases =>
      simp only [execute, Instruction.mapTargets]
      split
      · rw [select_map]
        rfl
      · rfl
  | verbatim opcode bytes =>
      simp only [execute, Instruction.mapTargets, runVerbatim]
      split
      · split <;> rfl
      · split
        · split <;> rfl
        · rfl

/-! ### Embedding -/

/-- A machine that is not stuck is at an instruction. -/
theorem exists_fetch {env : Environment Ref Heap Event} {p : Program}
    {c : Config Ref Heap Event} {next : Next (Config Ref Heap Event) (Result Ref Heap Event)}
    (h : step env p c = next) (hn : next ≠ .stuck) : ∃ insn, p.fetch c.pc = some insn := by
  cases hf : p.fetch c.pc with
  | none =>
      rw [step, hf] at h
      exact absurd h.symm hn
  | some insn => exact ⟨insn, rfl⟩

/-- The state with its instruction under another name. -/
def Config.rename (f : Nat → Nat) (c : Config Ref Heap Event) : Config Ref Heap Event :=
  { c with pc := f c.pc }

/-- The instructions of the first program stand in the second under the names
that `f` gives them. -/
structure Embeds (f : Nat → Nat) (p q : Program) : Prop where
  start : q.start = f p.start
  fetch : ∀ {n insn}, p.fetch n = some insn → q.fetch (f n) = some (insn.mapTargets f)
  next : ∀ {n insn}, p.fetch n = some insn → q.next (f n) = f (p.next n)
  handler : ∀ {n insn}, p.fetch n = some insn → ∀ catches,
    q.handler? (f n) catches = (p.handler? n catches).map f

namespace Embeds

variable {f : Nat → Nat} {p q : Program} {env : Environment Ref Heap Event}
  {c c' : Config Ref Heap Event} {vars : Variables Ref} {heap : Heap}

/-- One step here is one step there. -/
theorem step_rename (h : Embeds f p q) {insn : Instruction Nat}
    (hfetch : p.fetch c.pc = some insn) :
    step env q (c.rename f) = (match step env p c with
      | .running c' => .running (c'.rename f)
      | .halted r => .halted r
      | .stuck => .stuck) := by
  have hq : q.fetch (c.rename f).pc = some (insn.mapTargets f) := h.fetch hfetch
  simp only [step, hq, hfetch, execute_mapTargets]
  change resume env q (c.rename f)
    ((execute env insn c.stack c.vars c.heap).mapTarget f) = _
  cases execute env insn c.stack c.vars c.heap with
  | goes target stack vars heap events =>
      cases target with
      | none =>
          have hnext : q.next (f c.pc) = f (p.next c.pc) := h.next hfetch
          simp [Action.mapTarget, resume, hnext, Config.rename]
      | some t => rfl
  | throws exception heap events =>
      have hhandler : q.handler? (c.rename f).pc (env.catches · exception heap) =
          (p.handler? c.pc (env.catches · exception heap)).map f := h.handler hfetch _
      simp only [Action.mapTarget, resume, hhandler]
      cases p.handler? c.pc (env.catches · exception heap) <;> rfl
  | returns stack heap events => rfl
  | stuck => rfl

theorem simulation (h : Embeds f p q) :
    Simulation (step env p) (step env q) (fun c d => d = c.rename f) (fun _ => 0) := by
  constructor
  · rintro c d c' rfl hc
    obtain ⟨insn, hi⟩ := exists_fetch hc nofun
    exact .inl ⟨c'.rename f, by rw [h.step_rename hi, hc], rfl⟩
  · rintro c d r rfl hc
    obtain ⟨insn, hi⟩ := exists_fetch hc nofun
    rw [h.step_rename hi, hc]

/-- **A program behaves like one it embeds into.** -/
theorem sameBehaviour (h : Embeds f p q) (hs : SafeFrom env p vars heap) :
    SafeFrom env q vars heap ∧ SameBehaviour env p q vars heap := by
  refine h.simulation.sameBehaviour ?_ ?_ hs
  · rintro c d rfl
    rfl
  · simp only [Program.initial, Config.rename, h.start]

end Embeds

end Machine

/-! ### Exceptions -/

theorem Method.handler?_program {m : Method} {n : Nat} {catches : UInt16 → Bool} :
    m.program.handler? n catches = (m.handlers.find? fun h =>
      (decide (h.start ≤ n) && decide (n < h.stop)) &&
        (h.catchType == 0 || catches h.catchType)).map (·.entry) := by
  rw [Program.handler?, Method.program, List.find?_map, Option.map_map]
  rfl

namespace CodeStream

variable {s : CodeStream} {m : Method} {n : Nat}

theorem handler?_program {catches : UInt16 → Bool} :
    s.program.handler? n catches = (s.handlers.find? fun r =>
      (decide (r.start ≤ n) && r.stop.all (n < ·)) &&
        (r.catchType == 0 || catches r.catchType)).map (·.entry) := by
  rw [Program.handler?, program, List.find?_map, Option.map_map]
  rfl

theorem exists_covers {catches : UInt16 → Bool} {t : Nat}
    (h : s.program.handler? n catches = some t) :
    ∃ r ∈ s.handlers, Covers r n ∧ r.entry = t := by
  rw [handler?_program, Option.map_eq_some_iff] at h
  obtain ⟨r, hr, rfl⟩ := h
  have hcovers := List.find?_some hr
  simp only [Bool.and_eq_true, decide_eq_true_eq] at hcovers
  exact ⟨r, List.mem_of_find?_eq_some hr, hcovers.1, rfl⟩

theorem fetch_program {insn : Instruction Nat} :
    s.program.fetch n = some insn ↔ s.isLive n ∧ s.instruction? n = some insn := by
  by_cases hn : s.isLive n <;> simp [program, hn]

/-- New positions change nothing. -/
theorem program_renumber : s.renumber.program = s.program := by
  have hahead : s.renumber.ahead = s.ahead := funext fun _ => ahead_renumber
  unfold program
  simp only [isLive_renumber, instruction?_renumber, hahead]
  rfl

/-- A live node keeps its handler. -/
theorem Thins.handler?_program (h : s.Thins m) (hn : s.isLive n) (catches : UInt16 → Bool) :
    s.program.handler? n catches = (m.program.handler? n catches).map s.ahead := by
  obtain ⟨keep, heq, hkeep⟩ := h.handlers
  rw [CodeStream.handler?_program, Method.handler?_program, heq, List.find?_map, List.find?_filter,
    Option.map_map, Option.map_map]
  congr 1
  apply List.find?_congr
  intro r hr
  have hr := hkeep r hr
  by_cases hk : keep r
  · rw [if_pos hk] at hr
    have hcovers := range_covers (s := s) (h := r) (lt_size_of_ahead_lt hr.1).le hn
    simp only [hk, true_and, Function.comp_apply, hcovers, Bool.decide_eq_true]
    rfl
  · rw [if_neg hk] at hr
    have hidle : (decide (r.start ≤ n) && decide (n < r.stop)) = false := by
      by_contra hin
      simp only [Bool.not_eq_false, Bool.and_eq_true, decide_eq_true_eq] at hin
      exact hr n hin.1 hin.2 hn
    simp [hk, hidle]

/-! ### The method of a stream as a program -/

theorem rank_lt_rank_iff {k : Nat} (hn : s.isLive n) : s.rank n < s.rank k ↔ n < k := by
  constructor
  · intro h
    by_contra hle
    have := rank_mono (s := s) (Nat.le_of_not_lt hle)
    omega
  · exact rank_lt_rank hn

/-- A handler of the stream protects a live node as it does in the method, if it
is still there. -/
theorem covers_handlerOf? {r : HandlerRange} (hn : s.isLive n) :
    decide (r.start ≤ n) && r.stop.all (n < ·) ↔
      s.rank r.start ≤ s.rank n ∧ s.rank n < (r.stop.map s.rank).getD s.length := by
  have hstart : s.rank r.start ≤ s.rank n ↔ r.start ≤ n := by
    have := rank_lt_rank_iff hn (k := r.start)
    omega
  have hstop : s.rank n < (r.stop.map s.rank).getD s.length ↔ r.stop.all (n < ·) := by
    cases r.stop with
    | none =>
        simp only [Option.map_none, Option.getD_none, Option.all_none, length_eq_rank, iff_true]
        exact rank_lt_rank hn (lt_size_of_isLive hn)
    | some k => simpa using rank_lt_rank_iff hn
  rw [hstart, hstop, Bool.and_eq_true, decide_eq_true_eq]

/-- **A stream embeds into its method** by ranks. -/
theorem embeds_flat (s : CodeStream) (template : Method) :
    Embeds s.rank s.program (s.flat template).program := by
  refine ⟨?_, fun {n insn} hf => ?_, fun {n insn} hf => ?_, fun {n insn} hf catches => ?_⟩
  · exact (rank_ahead (Nat.zero_le _)).symm
  · obtain ⟨hn, hi⟩ := fetch_program.1 hf
    change (s.flat template).code[s.rank n]? = _
    rw [getElem?_flat hn, hi]
    rfl
  · obtain ⟨hn, hi⟩ := fetch_program.1 hf
    change s.rank n + 1 = s.rank (s.ahead (n + 1))
    rw [rank_ahead (lt_size_of_isLive hn), rank_succ, if_pos hn]
  · obtain ⟨hn, -⟩ := fetch_program.1 hf
    rw [Method.handler?_program, CodeStream.handler?_program, flat, List.find?_filterMap]
    -- The flat handler protects the rank of a live node just when the range covers it; one
    -- that protects nothing is dropped and catches nothing.
    have hfind : ∀ r ∈ s.handlers, (s.handlerOf? r).any (fun h =>
        (decide (h.start ≤ s.rank n) && decide (s.rank n < h.stop)) &&
          (h.catchType == 0 || catches h.catchType)) =
        ((decide (r.start ≤ n) && r.stop.all (n < ·)) &&
          (r.catchType == 0 || catches r.catchType)) := by
      intro r _
      have hcovers := covers_handlerOf? (r := r) hn
      rw [Bool.eq_iff_iff, Bool.and_eq_true, hcovers, handlerOf?]
      split
      · simp [Option.any]
      · rename_i hlt
        simp only [Option.any_none, Bool.false_eq_true, false_iff]
        rintro ⟨hin, -⟩
        omega
    rw [List.find?_congr hfind]
    cases hr : s.handlers.find? fun r => (decide (r.start ≤ n) && r.stop.all (n < ·)) &&
        (r.catchType == 0 || catches r.catchType) with
    | none => rfl
    | some r =>
        have hin := List.find?_some hr
        rw [Bool.and_eq_true] at hin
        obtain ⟨hle, hlt⟩ := (covers_handlerOf? hn).1 hin.1
        simp only [Option.bind_some, handlerOf?, if_pos (Nat.lt_of_le_of_lt hle hlt),
          Option.map_some]

/-- **A method embeds into its stream**, in which nothing is taken out. -/
theorem embeds_whole (h : m.IsClosed) :
    Embeds (whole m).ahead m.program (whole m).program := by
  have hthins := thins_whole h
  have hlive : ∀ {n insn}, m.program.fetch n = some insn →
      (whole m).isLive n ∧ m.code[n]? = some insn := by
    intro n insn hf
    exact ⟨isLive_whole.2 (List.getElem?_eq_some_iff.1 hf).1, hf⟩
  refine ⟨rfl, fun {n insn} hf => ?_, fun {n insn} hf => ?_, fun {n insn} hf catches => ?_⟩
  · obtain ⟨hn, hi⟩ := hlive hf
    rw [ahead_of_isLive hn, fetch_program]
    refine ⟨hn, ?_⟩
    rw [instruction?_whole, hi, Instruction.mapTargets_eq_self]
    exact fun t ht => ahead_whole (h.target (List.mem_of_getElem? hi) ht).le
  · obtain ⟨hn, -⟩ := hlive hf
    rw [ahead_of_isLive hn]
    rfl
  · obtain ⟨hn, -⟩ := hlive hf
    rw [ahead_of_isLive hn]
    exact hthins.handler?_program hn catches

/-- **The way back changes nothing.** The method of a stream that thins out
another method exists and behaves like the stream. -/
theorem Thins.toMethod {Ref Heap Event : Type} {env : Environment Ref Heap Event}
    {vars : Variables Ref} {heap : Heap} (h : s.Thins m) (template : Method)
    (hs : SafeFrom env s.program vars heap) :
    ∃ result, s.toMethod template = .ok result ∧
      SameBehaviour env s.program result.program vars heap :=
  ⟨s.flat template, h.isClosed.toMethod template,
    ((embeds_flat s template).sameBehaviour hs).2⟩

end CodeStream

end JvmOptimizer
