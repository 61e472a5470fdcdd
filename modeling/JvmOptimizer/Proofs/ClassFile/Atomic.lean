import JvmOptimizer.Proofs.ClassFile.Frame

/-!
# Methods that cannot be rewritten

A method whose new body cannot be encoded stays as it is. The pool does not always:
the numbers of the body are put into it before it is known whether the body has
bytes, and they stay there when it turns out to have none. What decides is the
first number that the pool lacks. If there is one and it finds room, the class has
changed although no method of it has (`ClassFile.rewrite_atomic_iff`).
-/

namespace JvmOptimizer

open Code Pool

/-! ### Interning -/

namespace ConstantPool

variable {p q : ConstantPool} {v : Value}

theorem findIdx?_eq_none {c : Constant} (h : c ∉ p.constants) :
    p.constants.findIdx? (·.isSame c) = none := by
  rw [Array.findIdx?_eq_none_iff]
  intro x hx
  rw [← Bool.not_eq_true, Constant.isSame_iff]
  exact fun hsame => h (hsame.1 ▸ hx)

/-- A number that stands in the pool is not put in again. -/
theorem exists_intern (h : .number v ∈ p.constants) :
    ∃ index, Pool.intern v p = .ok (index, p) := by
  have hsome : (p.constants.findIdx? (·.isSame (.number v))).isSome := by
    rw [Array.findIdx?_isSome, Array.any_eq_true']
    exact ⟨_, h, Constant.isSame_number.2 rfl⟩
  obtain ⟨i, hi⟩ := Option.isSome_iff_exists.1 hsome
  refine ⟨UInt16.ofNat (i + 1), ?_⟩
  simp only [Pool.intern, add, hi]

/-- The pool of a class stops one slot before the last index, and a wide number
needs room for both of its slots. -/
theorem intern_of_full (h : .number v ∉ p.constants)
    (hfull : 65534 < p.size + (Constant.number v).slots) :
    Pool.intern v p = .error .outOfSpace := by
  simp only [Pool.intern, add, findIdx?_eq_none h]
  exact if_pos hfull

/-- A number that is missing goes behind the slots in use, if its slots fit there.
-/
theorem intern_of_room (h : .number v ∉ p.constants)
    (hroom : p.size + (Constant.number v).slots ≤ 65534) :
    Pool.intern v p = .ok (UInt16.ofNat (p.size + 1), p.push (.number v)) := by
  simp only [Pool.intern, add, findIdx?_eq_none h]
  exact if_neg (Nat.not_lt.2 hroom)

theorem size_le_of_later (h : Later p q) : p.size ≤ q.size := by
  obtain ⟨numbers, hnumbers⟩ := exists_numbers_of_later h
  have hlength := congrArg List.length hnumbers
  rw [List.length_append, Array.length_toList, Array.length_toList] at hlength
  unfold size
  omega

/-- A pool that has grown is not the one it was before. -/
theorem eq_of_later_of_le (h : Later p q) (hle : q.size ≤ p.size) : q = p := by
  induction h with
  | refl => rfl
  | @intern q r v index before step ih =>
      obtain ⟨i, -, -, rfl⟩ | ⟨-, -, rfl⟩ := add_cases step
      · exact ih hle
      · have hsize := size_le_of_later before
        have hpos := (Constant.number v).slots_pos
        rw [size_push] at hle
        omega

end ConstantPool

namespace Code

variable {p : ConstantPool} {m : Method}

/-- The first number that instructions take from the pool and that it lacks. -/
def firstMissing? (p : ConstantPool) (code : List (Instruction Nat)) : Option Value :=
  (code.filterMap pooled?).find? fun v => .number v ∉ p.constants

/-- The pool has no room for the first number that it lacks, or lacks none. -/
def AddsNothing (p : ConstantPool) (code : List (Instruction Nat)) : Prop :=
  ∀ v ∈ firstMissing? p code, 65534 < p.size + (Constant.number v).slots

section Cons

variable {insn : Instruction Nat} {code : List (Instruction Nat)} {v : Value}

theorem addsNothing_cons_none (h : pooled? insn = none) :
    AddsNothing p (insn :: code) ↔ AddsNothing p code := by
  rw [AddsNothing, AddsNothing, firstMissing?, List.filterMap_cons_none h, firstMissing?]

/-- A number that stands in the pool already is found again, so what matters is
what the instructions behind it need. -/
theorem addsNothing_cons_of_mem (h : pooled? insn = some v) (hv : .number v ∈ p.constants) :
    AddsNothing p (insn :: code) ↔ AddsNothing p code := by
  rw [AddsNothing, AddsNothing, firstMissing?, List.filterMap_cons_some h,
    List.find?_cons_of_neg (by simpa using hv), firstMissing?]

/-- The first number that is missing decides: if there is no room for it, encoding
stops before anything was put in. -/
theorem addsNothing_cons_of_not_mem (h : pooled? insn = some v) (hv : .number v ∉ p.constants) :
    AddsNothing p (insn :: code) ↔ 65534 < p.size + (Constant.number v).slots := by
  rw [AddsNothing, firstMissing?, List.filterMap_cons_some h,
    List.find?_cons_of_pos (by simpa using hv)]
  simp only [Option.mem_def, Option.some.injEq, forall_eq']

end Cons

/-- Making the pieces of a body leaves the pool as it is if and only if there is
no number to put in, or no room for the first of them. -/
theorem snd_mapM_piece_eq_iff (code : List (Instruction Nat)) (p : ConstantPool) :
    (code.mapM piece p).2 = p ↔ AddsNothing p code := by
  induction code with
  | nil => simp [Steps.mapM_nil_apply, AddsNothing, firstMissing?]
  | cons insn code ih =>
      cases hpooled : pooled? insn with
      | none =>
          rw [Steps.snd_mapM_cons code (piece_of_pooled?_eq_none hpooled p), addsNothing_cons_none hpooled, ih]
      | some v =>
          have hpiece := piece_of_pooled? hpooled p
          rw [interned_apply] at hpiece
          by_cases hmem : .number v ∈ p.constants
          · obtain ⟨index, hintern⟩ := ConstantPool.exists_intern hmem
            rw [hintern] at hpiece
            rw [Steps.snd_mapM_cons code hpiece, addsNothing_cons_of_mem hpooled hmem]
            exact ih
          · rw [addsNothing_cons_of_not_mem hpooled hmem]
            rcases Nat.lt_or_ge 65534 (p.size + (Constant.number v).slots) with hfull | hroom
            · rw [ConstantPool.intern_of_full hmem hfull] at hpiece
              rw [Steps.mapM_cons_of_error code hpiece]
              exact iff_of_true rfl hfull
            · rw [ConstantPool.intern_of_room hmem hroom] at hpiece
              rw [Steps.snd_mapM_cons code hpiece]
              refine iff_of_false (fun heq => ?_) (Nat.not_lt.2 hroom)
              -- The pool has the number now, and keeps it.
              have hsize := ConstantPool.size_le_of_later
                (later_mapM_piece code (p.push (.number v)))
              have hpos := (Constant.number v).slots_pos
              rw [heq, ConstantPool.size_push] at hsize
              omega

/-- Numbers are put into the pool before anything else is done, so whether the
pool changes does not depend on how encoding ends. -/
theorem snd_encode_eq_iff (m : Method) (p : ConstantPool) :
    (encode m p).2 = p ↔ AddsNothing p m.code := by
  rw [← snd_mapM_piece_eq_iff, encode]
  rcases m.code.mapM piece p with ⟨_ | pieces, q⟩ <;> rfl

end Code

namespace ClassFile

variable {p q : ConstantPool} {m m' : Member} {settings : Settings} {c : ClassFile}

/-! ### One method -/

/-- What the method is optimized to, if it is, adds nothing to the pool. -/
def LeavesPool (settings : Settings) (p : ConstantPool) (m : Member) : Prop :=
  ∀ info ∈ m.code? p, ∀ code, CodeAttribute.parse info = .ok code →
    ∀ body ∈ methodBody? p m code, (body.optimizeOrKeep p settings).changed →
      AddsNothing p (body.optimizeOrKeep p settings).method.code

/-- The pool is asked only for a body that was decoded and that optimizing
changed. -/
theorem snd_rewriteBody_eq_iff (settings : Settings) (m : Member) (info : Bytes)
    (p : ConstantPool) : (rewriteBody settings m info p).2 = p ↔
      ∀ code, CodeAttribute.parse info = .ok code → ∀ body ∈ methodBody? p m code,
        (body.optimizeOrKeep p settings).changed →
          AddsNothing p (body.optimizeOrKeep p settings).method.code := by
  cases hcode : CodeAttribute.parse info with
  | error e => simp [rewriteBody, hcode]
  | ok code =>
      cases hbody : methodBody? p m code with
      | none => simp [rewriteBody, hcode, hbody]
      | some body =>
          cases hchanged : (body.optimizeOrKeep p settings).changed with
          | false => simp [rewriteBody, hcode, hbody, hchanged]
          | true =>
              have hsnd := snd_encode_eq_iff (body.optimizeOrKeep p settings).method p
              have hpool : (rewriteBody settings m info p).2 =
                  (encode (body.optimizeOrKeep p settings).method p).2 := by
                simp only [rewriteBody, hcode, hbody, hchanged, if_true]
                rcases encode (body.optimizeOrKeep p settings).method p with ⟨_ | e, q⟩ <;> rfl
              rw [hpool, hsnd]
              simp [hbody, hchanged]

theorem snd_outcomeOf_eq_iff (settings : Settings) (m : Member) (p : ConstantPool) :
    (outcomeOf settings m p).2 = p ↔ LeavesPool settings p m := by
  unfold outcomeOf LeavesPool
  cases m.code? p with
  | none => simp
  | some info => simpa using snd_rewriteBody_eq_iff settings m info p

/-! ### All methods -/

section Run

variable {methods methods' : List Member} {report report' : ClassReport}

/-- The pool is the one of the start if no method adds to that. -/
theorem pool_run_eq_iff
    (h : methods.mapM (rewriteMethod settings) (p, report) = (methods', q, report')) :
    q = p ↔ ∀ m ∈ methods, LeavesPool settings p m := by
  induction methods generalizing p report methods' with
  | nil =>
      cases h
      simp
  | cons m methods ih =>
      obtain ⟨rest, middle, rfl, hrest, -⟩ := mapM_cons_eq h
      have hfirst := later_outcomeOf settings m p
      have hothers := (later_run hrest).1
      rw [List.forall_mem_cons, ← snd_outcomeOf_eq_iff]
      constructor
      · intro heq
        have hsize := ConstantPool.size_le_of_later hothers
        rw [heq] at hsize
        have hmiddle := ConstantPool.eq_of_later_of_le hfirst hsize
        rw [hmiddle] at hrest
        exact ⟨hmiddle, (ih hrest).1 heq⟩
      · rintro ⟨hmiddle, hall⟩
        rw [hmiddle] at hrest
        exact (ih hrest).2 hall

end Run

/-- **When a method that cannot be rewritten leaves no trace.** The method itself
stays in any case. The pool does so if and only if the body that was to be encoded
adds nothing to it. So a class of which no method is changed is the same afterwards
if and only if it was passed through or each of its methods adds nothing. -/
theorem rewrite_atomic_iff (settings : Settings) :
    (∀ m p report m' q report', rewriteMethod settings m (p, report) = (m', q, report') →
      report'.skipped = report.skipped + 1 → m' = m ∧ (q = p ↔ LeavesPool settings p m)) ∧
    ∀ c : ClassFile, (c.optimize settings).2.changed = 0 →
      ((c.optimize settings).1 = c ↔ (c.optimize settings).2.passedThrough ∨
        ∀ m ∈ c.methods, LeavesPool settings c.pool m) := by
  constructor
  · intro m p report m' q report' hrewrite hskipped
    obtain ⟨last, happly, hcounts⟩ := rewriteMethod_apply settings m p report
    rw [hrewrite] at happly
    cases happly
    refine ⟨?_, snd_outcomeOf_eq_iff settings m p⟩
    -- A method is counted as skipped only if its rewrite failed.
    have hfailed : (outcomeOf settings m p).1.isFailed := by
      by_contra hnot
      have hsame := hcounts.skipped
      rw [if_neg hnot] at hsame
      omega
    exact MethodOutcome.applied_of_none (MethodOutcome.info?_of_isFailed hfailed)
  · intro c hzero
    unfold optimize at hzero ⊢
    split
    · exact iff_of_true rfl (.inl rfl)
    -- No method changed, so the methods are the old ones and the version was not lowered:
    -- the class can differ from the old one in its pool only.
    · rename_i hnone
      rcases hrun : c.methods.mapM (rewriteMethod settings) (c.pool, {}) with
        ⟨methods, pool, report⟩
      obtain ⟨hmethods, hpool, hchanged⟩ := rewriteMethods_cases hrun
      simp only [hnone] at hzero
      have hkept : methods = c.methods := methods_run hrun (hchanged.symm.trans hzero)
      have hresult : c.rewriteMethods settings = ({ c with pool }, report) := by
        unfold rewriteMethods
        simp only [StateT.run, hrun]
        rw [if_neg fun hlow => absurd hzero (hchanged ▸ Nat.ne_of_gt hlow.1), hkept]
      have hpassed : report.passedThrough = false := (later_run hrun).2.2.2
      rw [hresult, ← pool_run_eq_iff hrun]
      simp only [hpassed, Bool.false_eq_true, false_or]
      constructor
      · intro heq
        exact congrArg ClassFile.pool heq
      · rintro rfl
        rfl

/-- A class with a method that calls a subroutine, which cannot be decoded. -/
def subroutine : ClassFile where
  minorVersion := 0
  majorVersion := 50
  pool := ⟨#[.utf8 "Code", .utf8 "()V"]⟩
  access := 0x21
  thisClass := 0
  superClass := 0
  interfaces := []
  fields := []
  methods := [⟨9, 1, 2, [⟨1, CodeAttribute.toBytes ⟨1, 0, [0xa8, 0, 3, 0xb1], [], []⟩⟩]⟩]
  attributes := []

theorem rewrite_atomic_iff_subroutine :
    (subroutine.optimize {}).2 = { methods := 1, skipped := 1 } ∧
      (subroutine.optimize {}).1 = subroutine ∧
      ∀ m ∈ subroutine.methods, (rewriteMethod {} m (subroutine.pool, {})).1 = m ∧
        (rewriteMethod {} m (subroutine.pool, {})).2.1 = subroutine.pool := by
  have hreport : (subroutine.optimize {}).2 = { methods := 1, skipped := 1 } := by decide +kernel
  have hskipped : ∀ m ∈ subroutine.methods,
      (rewriteMethod {} m (subroutine.pool, {})).2.2.skipped = 1 := by decide +kernel
  have hpool : ∀ m ∈ subroutine.methods,
      (outcomeOf {} m subroutine.pool).2 = subroutine.pool := by decide +kernel
  have hleaves : ∀ m ∈ subroutine.methods, LeavesPool {} subroutine.pool m :=
    fun m hm => (snd_outcomeOf_eq_iff {} m subroutine.pool).1 (hpool m hm)
  refine ⟨hreport, ?_, fun m hm => ?_⟩
  · exact ((rewrite_atomic_iff {}).2 subroutine (by rw [hreport])).2 (.inr hleaves)
  · obtain ⟨hkept, hiff⟩ := (rewrite_atomic_iff {}).1 m subroutine.pool {} _ _ _ rfl (hskipped m hm)
    exact ⟨hkept, hiff.2 (hleaves m hm)⟩

/-! ### A class that changes without a changed method -/

/-- A pool with two texts and `n` constants that nothing refers to. -/
def filled (n : Nat) : ConstantPool :=
  ⟨⟨.utf8 "Code" :: .utf8 "()I" :: List.replicate n (.className 0)⟩⟩

section Filled

variable {n : Nat}

theorem size_filled : (filled n).size = n + 2 := by
  simp [filled, ConstantPool.size]

theorem mem_filled {k : Constant} (h : k ∈ (filled n).constants) :
    k = .utf8 "Code" ∨ k = .utf8 "()I" ∨ k = .className 0 := by
  simp only [filled, List.mem_toArray, List.mem_cons, List.mem_replicate] at h
  obtain h | h | ⟨-, h⟩ := h
  exacts [.inl h, .inr (.inl h), .inr (.inr h)]

/-- The pool has no number at all, so each one that a body needs would have to be
put in. -/
theorem number_not_mem_filled (v : Value) : .number v ∉ (filled n).constants := by
  intro h
  rcases mem_filled h with h | h | h <;> cases h

theorem memberDescriptor?_filled (index : UInt16) :
    (filled n).memberDescriptor? index = none := by
  unfold ConstantPool.memberDescriptor?
  cases hget : (filled n).get? index with
  | none => rfl
  | some k =>
      have hmem : k ∈ (filled n).constants := by
        unfold ConstantPool.get? at hget
        split at hget
        · cases hget
        · exact Array.mem_of_getElem? (Option.filter_eq_some_iff.1 hget).1
      rcases mem_filled hmem with rfl | rfl | rfl <;> rfl

theorem utf8?_filled : (filled n).utf8? 1 = some "Code" ∧ (filled n).utf8? 2 = some "()I" := by
  simp only [ConstantPool.utf8?, ConstantPool.get?_eq_slotAt?]
  exact ⟨rfl, rfl⟩

/-- Code that computes two numbers, each of them too large for an instruction. -/
def twoSumsCode : CodeAttribute :=
  ⟨2, 0, [0x11, 0x75, 0x30, 0x11, 0x75, 0x30, 0x60, 0xac,
    0x11, 0x75, 0x30, 0x10, 0x03, 0x68, 0xac], [], []⟩

/-- A method with this code. -/
def twoSums : Member := ⟨9, 1, 2, [⟨1, twoSumsCode.toBytes⟩]⟩

/-- The body of `twoSums`. -/
def twoSumsBody : Method where
  code := [.const (.int 30000), .const (.int 30000), .arith .add .int, .verbatim 0xac [],
    .const (.int 30000), .const (.int 3), .arith .mul .int, .verbatim 0xac []]
  maxStack := 2

theorem code?_twoSums : twoSums.code? (filled n) = some twoSumsCode.toBytes := by
  have hname : Attribute.name? (filled n) ⟨1, twoSumsCode.toBytes⟩ = some "Code" := utf8?_filled.1
  have hfind : twoSums.attributes.find? (fun a => a.name? (filled n) = some "Code") =
      some ⟨1, twoSumsCode.toBytes⟩ := List.find?_cons_of_pos (by simpa using hname)
  rw [Member.code?, hfind, Option.map_some]

theorem methodBody?_twoSums : methodBody? (filled n) twoSums twoSumsCode = some twoSumsBody := by
  have hdescriptor : twoSums.descriptor? (filled n) = some "()I" := utf8?_filled.2
  have hdecode : decode (filled n) twoSumsCode.code twoSumsCode.exceptions =
      .ok { twoSumsBody with maxStack := 0 } := decode_eq_ok_iff.2 ⟨_, rfl, rfl⟩
  have hshape : Descriptor.methodShape? "()I" = some ⟨0, 1⟩ := by decide +kernel
  simp only [methodBody?, hdescriptor, hshape, hdecode, Option.bind_eq_bind, Option.bind_some]
  rfl

/-- Each of the two numbers is computed. -/
theorem optimize_twoSums : (twoSumsBody.optimizeOrKeep (filled n) {}).changed ∧
    (twoSumsBody.optimizeOrKeep (filled n) {}).method.code =
      [.const (.int 60000), .verbatim 0xac [], .const (.int 90000), .verbatim 0xac []] := by
  have hempty : twoSumsBody.optimizeOrKeep (filled n) {} =
      twoSumsBody.optimizeOrKeep ({} : ConstantPool) {} := by
    refine Method.optimizeOrKeep_congr (fun index => ?_) {} twoSumsBody
    exact (memberDescriptor?_filled index).trans (by simp [Pool.memberDescriptor?,
      ConstantPool.memberDescriptor?, ConstantPool.get?])
  rw [hempty]
  decide +kernel

/-- If there is one slot left, the first of the two numbers takes it. -/
theorem encode_twoSums (hn : n = 65531) :
    encode (twoSumsBody.optimizeOrKeep (filled n) {}).method (filled n) =
      (.error (.pool .outOfSpace), (filled n).push (.number (.int 60000))) := by
  -- The last slot goes to the first number.
  have hfirst : ∃ made, piece (.const (.int 60000)) (filled n) =
      (.ok made, (filled n).push (.number (.int 60000))) := by
    have hroom : (filled n).size + (Constant.number (.int 60000)).slots ≤ 65534 := by
      rw [size_filled, hn]
      decide
    have hpooled : pooled? (.const (.int 60000)) = some (.int 60000) := rfl
    have hpiece := piece_of_pooled? hpooled (filled n)
    rw [interned_apply, ConstantPool.intern_of_room (number_not_mem_filled _) hroom] at hpiece
    exact ⟨_, hpiece⟩
  -- The second one is missing too, and there is no slot left.
  have hsecond : piece (.const (.int 90000)) ((filled n).push (.number (.int 60000))) =
      (.error (.pool .outOfSpace), (filled n).push (.number (.int 60000))) := by
    have hmissing : .number (.int 90000) ∉
        ((filled n).push (.number (.int 60000))).constants := by
      intro hmem
      rcases Array.mem_push.1 hmem with hmem | heq
      · exact number_not_mem_filled _ hmem
      · exact absurd heq (by decide)
    have hfull : 65534 < ((filled n).push (.number (.int 60000))).size +
        (Constant.number (.int 90000)).slots := by
      rw [ConstantPool.size_push, size_filled, hn]
      decide
    have hpooled : pooled? (.const (.int 90000)) = some (.int 90000) := rfl
    have hpiece := piece_of_pooled? hpooled ((filled n).push (.number (.int 60000)))
    rw [interned_apply, ConstantPool.intern_of_full hmissing hfull] at hpiece
    exact hpiece
  obtain ⟨made, hmade⟩ := hfirst
  rw [encode, optimize_twoSums.2, Steps.mapM_cons_of_rest hmade
    (Steps.mapM_cons_of_rest rfl (Steps.mapM_cons_of_error _ hsecond))]

theorem outcomeOf_twoSums (hn : n = 65531) : outcomeOf {} twoSums (filled n) =
    (.failed, (filled n).push (.number (.int 60000))) := by
  have hparse : CodeAttribute.parse twoSumsCode.toBytes = .ok twoSumsCode := by decide +kernel
  simp only [outcomeOf, code?_twoSums, rewriteBody, hparse, methodBody?_twoSums,
    optimize_twoSums.1, if_true, encode_twoSums hn]

/-- A class with such a pool and method. -/
def crowded (n : Nat) : ClassFile where
  minorVersion := 0
  majorVersion := 48
  pool := filled n
  access := 0x21
  thisClass := 0
  superClass := 0
  interfaces := []
  fields := []
  methods := [twoSums]
  attributes := []

/-- The class keeps its methods, and its pool has a number that nothing refers to.
-/
theorem optimize_crowded (hn : n = 65531) : (crowded n).optimize {} =
    ({ crowded n with pool := (filled n).push (.number (.int 60000)) },
      { methods := 1, skipped := 1 }) := by
  have hnone : (crowded n).loweringBlocker? ({} : Settings).targetVersion = none := by
    have hold : min (48 : UInt16) 50 ≤ 50 := by decide
    have hlow : ¬ (50 : UInt16) < 48 := by decide
    exact loweringBlocker?_eq_none_iff.2 ⟨hold, fun hlt => absurd hlt hlow⟩
  rcases hrun : (crowded n).methods.mapM (rewriteMethod {}) ((crowded n).pool, {}) with
    ⟨methods, pool, report⟩
  obtain ⟨rest, middle, rfl, hrest, hcounts⟩ := mapM_cons_eq hrun
  have houtcome : outcomeOf {} twoSums (crowded n).pool =
      (.failed, (filled n).push (.number (.int 60000))) := outcomeOf_twoSums hn
  rw [houtcome] at hrest hcounts hrun
  cases hrest
  have hreport : report = { methods := 1, skipped := 1 } := by
    have hcode : (twoSums.code? (crowded n).pool).isSome := by
      rw [show (crowded n).pool = filled n from rfl, code?_twoSums]
      rfl
    obtain ⟨hmethods, hchanged, hskipped, hlowered, hpassed⟩ := hcounts
    rw [if_pos hcode] at hmethods
    cases report
    simp only [ClassReport.mk.injEq]
    exact ⟨hmethods, hchanged, hskipped, hlowered, hpassed⟩
  simp only [optimize, hnone, rewriteMethods, StateT.run, hrun, hreport]
  rw [if_neg fun hlow => absurd hlow.1 (Nat.lt_irrefl 0)]
  rfl

end Filled

/-- A method is skipped and stays as it is, but its first number is left in the
pool. -/
theorem rewrite_not_atomic_crowded :
    ((crowded 65531).optimize {}).2 = { methods := 1, skipped := 1 } ∧
      ((crowded 65531).optimize {}).1 ≠ crowded 65531 := by
  rw [optimize_crowded rfl]
  refine ⟨rfl, fun heq => ?_⟩
  have hsize : ((filled 65531).push (.number (.int 60000))).size = (filled 65531).size :=
    congrArg (fun c => c.pool.size) heq
  have hpos := (Constant.number (.int 60000)).slots_pos
  rw [ConstantPool.size_push] at hsize
  omega

end ClassFile

end JvmOptimizer
