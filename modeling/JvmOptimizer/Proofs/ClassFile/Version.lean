import JvmOptimizer.Proofs.ClassFile.Rewrite
import JvmOptimizer.Proofs.Code.Unresolved

/-!
# Lowered classes

What stands against a lower version is looked for before a class is rewritten,
and has to be absent afterwards. The pool only gains numbers, so that constants,
attributes and bodies that stay need no second look (`bodyBlocker?_of_later`).
A body that is rewritten calls nothing that it did not call before: the edits
keep calls or drop them, the bytes spell what was edited, and reading them with
a later pool changes loads only (`noInterfaceCalls_withBody`).
-/

namespace JvmOptimizer

open Code Pool

/-! ### Later pools -/

namespace ConstantPool

variable {p q : ConstantPool}

/-- Only numbers are put into a pool. -/
theorem mem_of_later (h : Later p q) {c : Constant} (hc : c ∈ q.constants) :
    c ∈ p.constants ∨ c.isDynamic = false ∧ c.isModular = false := by
  rw [← Array.mem_toList_iff] at hc ⊢
  induction h with
  | refl => exact .inl hc
  | @intern _ _ v _ _ step ih =>
      obtain ⟨i, -, -, rfl⟩ | ⟨-, -, rfl⟩ := add_cases step
      · exact ih hc
      · rw [toList_push, List.mem_append, Constant.row, List.mem_cons] at hc
        rcases hc with hc | rfl | hc
        · exact ih hc
        · exact .inr ⟨rfl, rfl⟩
        · split at hc
          · rw [List.mem_singleton.1 hc]
            exact .inr ⟨rfl, rfl⟩
          · cases hc

/-- Numbers are no features of a newer version, so what a class needs of its
version does not grow with its pool. -/
theorem hasDynamic_of_later (h : Later p q) (hp : p.hasDynamic = false) :
    q.hasDynamic = false := by
  simp only [hasDynamic, Array.any_eq_false'] at hp ⊢
  intro c hc
  rcases mem_of_later h hc with hmem | ⟨hnot, -⟩
  · exact hp c hmem
  · simp [hnot]

theorem hasModular_of_later (h : Later p q) (hp : p.hasModular = false) :
    q.hasModular = false := by
  simp only [hasModular, Array.any_eq_false'] at hp ⊢
  intro c hc
  rcases mem_of_later h hc with hmem | ⟨-, hnot⟩
  · exact hp c hmem
  · simp [hnot]

theorem isInterfaceMethod_of_later (h : Later p q) : q.isInterfaceMethod = p.isInterfaceMethod := by
  funext index
  rcases get?_of_later h index with heq | ⟨hp, v, hq⟩
  · rw [isInterfaceMethod, heq, isInterfaceMethod]
  · rw [isInterfaceMethod, hq, isInterfaceMethod, hp]

end ConstantPool

namespace ClassFile

variable {b p q r : ConstantPool} {m m' : Member} {info : Bytes} {settings : Settings}
  {outcome : MethodOutcome}

theorem callsInterfaceMethod_of_later (h : Later p q) :
    callsInterfaceMethod q = callsInterfaceMethod p := by
  funext insn
  cases insn <;> simp only [callsInterfaceMethod, ConstantPool.isInterfaceMethod_of_later h]

/-! ### Calls in a body -/

/-- A call is none of the loads that a pool is asked about. -/
theorem callsInterfaceMethod_poolConstant {opcode : Opcode} {operands : Bytes}
    (h : Form.ofOpcode opcode = .poolConstant) :
    callsInterfaceMethod p (.verbatim opcode operands) = false := by
  have hstatic : opcode ≠ Opcode.invokestatic := by
    rintro rfl
    cases h
  have hspecial : opcode ≠ Opcode.invokespecial := by
    rintro rfl
    cases h
  simp [callsInterfaceMethod, hstatic, hspecial]

/-- A load that turns out to be a number is no call, and no call is a load. -/
theorem callsInterfaceMethod_lookUp (insn : Instruction Nat) :
    callsInterfaceMethod p (lookUp q insn) = callsInterfaceMethod p insn := by
  cases insn with
  | verbatim opcode operands =>
      by_cases hform : Form.ofOpcode opcode = .poolConstant
      · rw [callsInterfaceMethod_poolConstant hform, lookUp]
        split
        · rfl
        · exact callsInterfaceMethod_poolConstant hform
      · rw [lookUp_verbatim hform]
  | _ => rfl

theorem callsInterfaceMethod_mapTargets (f : Nat → Nat) (insn : Instruction Nat) :
    callsInterfaceMethod p (insn.mapTargets f) = callsInterfaceMethod p insn := by
  cases insn <;> rfl

/-- What takes the place of another instruction is a constant or a discard, and
neither calls anything. -/
theorem callsInterfaceMethod_of_replaces {old new : Instruction Nat} (h : new.Replaces old) :
    callsInterfaceMethod p new = false := by
  cases h with
  | const _ => rfl
  | discard =>
      unfold DeadStore.discard
      split <;> rfl

/-- Writing a constant as a load from the pool adds no call either. -/
theorem callsInterfaceMethod_of_unloads {insn written : Instruction Nat}
    (h : Unloads insn written) (hinsn : callsInterfaceMethod p insn = false) :
    callsInterfaceMethod p written = false := by
  cases h with
  | same => exact hinsn
  | load form _ => exact callsInterfaceMethod_poolConstant form

/-- No interface method is called directly in a list of instructions. -/
def NoInterfaceCalls (pool : ConstantPool) (code : List (Instruction Nat)) : Prop :=
  ∀ insn ∈ code, callsInterfaceMethod pool insn = false

theorem noInterfaceCalls_of_later (h : Later p q) {code : List (Instruction Nat)} :
    NoInterfaceCalls q code ↔ NoInterfaceCalls p code := by
  simp only [NoInterfaceCalls, callsInterfaceMethod_of_later h]

theorem noInterfaceCalls_map_lookUp {code : List (Instruction Nat)} :
    NoInterfaceCalls p (code.map (lookUp q)) ↔ NoInterfaceCalls p code := by
  simp only [NoInterfaceCalls, List.forall_mem_map, callsInterfaceMethod_lookUp]

/-- A body keeps the version from being lowered if it calls a method of an
interface, and also if it cannot be decoded, since then it may do so. -/
theorem bodyBlocker?_eq_none_iff : bodyBlocker? p info = none ↔
    ∃ body, decodeBody? p info = some body ∧ NoInterfaceCalls p body.code := by
  unfold bodyBlocker?
  cases decodeBody? p info with
  | none => simp
  | some body => simp [NoInterfaceCalls]

theorem decodeBody?_eq_some {body : Method} : decodeBody? p info = some body ↔
    ∃ code, CodeAttribute.parse info = .ok code ∧
      decode p code.code code.exceptions = .ok body := by
  unfold decodeBody?
  cases CodeAttribute.parse info with
  | error e => simp [Except.toOption]
  | ok code =>
      cases hdecode : decode p code.code code.exceptions with
      | error e => simp [Except.toOption, hdecode]
      | ok body' => simp [Except.toOption, hdecode]

/-- A body that stays keeps its calls, whatever is put into the pool. -/
theorem bodyBlocker?_of_later (h : Later p q) (hp : bodyBlocker? p info = none) :
    bodyBlocker? q info = none := by
  obtain ⟨body, hbody, hcalls⟩ := bodyBlocker?_eq_none_iff.1 hp
  obtain ⟨code, hcode, hdecode⟩ := decodeBody?_eq_some.1 hbody
  obtain ⟨raw, hraw, rfl⟩ := decode_eq_ok_iff.1 hdecode
  have hlater : decode q code.code code.exceptions = _ := decode_eq_ok_iff.2 ⟨raw, hraw, rfl⟩
  refine bodyBlocker?_eq_none_iff.2 ⟨_, decodeBody?_eq_some.2 ⟨code, hcode, hlater⟩, ?_⟩
  rw [noInterfaceCalls_map_lookUp] at hcalls ⊢
  exact (noInterfaceCalls_of_later h).2 hcalls

/-! ### Rewritten bodies -/

section Rewritten

variable {code : CodeAttribute} {body : Method} {e : Encoded} {o : Optimized}

/-- Optimizing adds no call: it removes instructions and computes others. -/
theorem noInterfaceCalls_optimize (ho : body.optimize p settings = .ok o)
    (h : NoInterfaceCalls b body.code) : NoInterfaceCalls b o.method.code := by
  obtain ⟨s, -, -, -, hedited⟩ := Method.exists_passes ho
  intro y hy
  obtain ⟨x, hx, rfl | hr⟩ := hedited.exists_old hy
  · rw [callsInterfaceMethod_mapTargets]
    exact h x hx
  · exact callsInterfaceMethod_of_replaces hr

/-- A rewritten body is read back as it was written, unless nothing is left
of it. -/
theorem parse_withBody (hcode : CodeAttribute.parse info = .ok code)
    (hbody : methodBody? p m code = some body) (ho : body.optimize p settings = .ok o)
    (hencode : encode o.method p = (.ok e, q)) (hne : e.code ≠ []) :
    CodeAttribute.parse (withBody q code o.method e).toBytes =
      .ok (withBody q code o.method e) := by
  obtain ⟨hwell, hkeys, hhandlers⟩ := wellFormed_optimize hbody ho
  obtain ⟨written, -, -, hlength, hexceptions⟩ := exists_decode_empty hencode hwell.empty hkeys
  exact CodeAttribute.parse_toBytes (fits_withBody (CodeAttribute.fits_of_parse hcode) hne hlength
    (hexceptions.trans hhandlers) o.method)

/-- **A rewritten body calls nothing new.** -/
theorem noInterfaceCalls_withBody (hcode : CodeAttribute.parse info = .ok code)
    (hbody : methodBody? p m code = some body) (ho : body.optimize p settings = .ok o)
    (hencode : encode o.method p = (.ok e, q)) (hr : Later q r)
    (hinfo : bodyBlocker? p info = none) {body' : Method}
    (hbody' : decodeBody? r (withBody q code o.method e).toBytes = some body') :
    NoInterfaceCalls r body'.code := by
  obtain ⟨code', hcode', hdecode'⟩ := decodeBody?_eq_some.1 hbody'
  have hne : e.code ≠ [] := by
    intro hnil
    rw [CodeAttribute.parse_toBytes_of_nil hnil] at hcode'
    cases hcode'
  rw [parse_withBody hcode hbody ho hencode hne] at hcode'
  cases hcode'
  obtain ⟨hwell, hkeys, -⟩ := wellFormed_optimize hbody ho
  obtain ⟨written, hunloads, hdecode, -⟩ := exists_decode_empty hencode hwell.empty hkeys
  obtain ⟨raw, hraw, rfl⟩ := decode_eq_ok_iff.1 hdecode'
  obtain rfl : _ = raw := Except.ok.inj (hdecode.symm.trans hraw)
  -- From the body that was read, through the one that was edited, to what was written.
  have hread : NoInterfaceCalls p body.code := by
    obtain ⟨decoded, slots, hdecoded, rfl⟩ := methodBody?_eq_some hbody
    obtain ⟨body, hread, hcalls⟩ := bodyBlocker?_eq_none_iff.1 hinfo
    rw [decodeBody?_eq_some.2 ⟨code, hcode, hdecoded⟩] at hread
    cases hread
    exact hcalls
  have hedited := noInterfaceCalls_optimize ho hread
  have hwritten : NoInterfaceCalls p written := by
    intro y hy
    obtain ⟨x, hx, hxy⟩ := exists_of_unloads hunloads hy
    exact callsInterfaceMethod_of_unloads hxy (hedited x hx)
  rw [noInterfaceCalls_map_lookUp]
  exact (noInterfaceCalls_of_later ((later_of_encode hencode).trans hr)).2 hwritten

end Rewritten

/-- The contents of a `Code` attribute, without anything that speaks of offsets
in the code. They are read back as they are, unless there is no code left. -/
def IsStripped (pool : ConstantPool) (info : Bytes) : Prop :=
  ∃ code : CodeAttribute, info = code.toBytes ∧
    (code.code ≠ [] → CodeAttribute.parse info = .ok code) ∧
    ∀ a ∈ code.attributes, ∀ name ∈ offsetDependent, a.name? pool ≠ some name

/-! ### One method after the other -/

/-- What happens to each of the methods in turn. -/
def outcomes (settings : Settings) : List Member → ConstantPool → List MethodOutcome
  | [], _ => []
  | m :: methods, pool =>
      (outcomeOf settings m pool).1 :: outcomes settings methods (outcomeOf settings m pool).2

/-- A rewritten method has the contents it was given, and nothing in them speaks
of offsets. -/
theorem isStripped_outcomeOf (h : outcomeOf settings m p = (outcome, q))
    (hinfo : outcome.info? = some info) (hr : Later q r) :
    (m.replaceCode q info).code? r = some info ∧ IsStripped r info := by
  obtain ⟨hnone, -⟩ | ⟨old, code, body, e, hold, hcode, hbody, hchanged, hencode, hsome⟩ :=
    outcomeOf_cases h
  · rw [hnone] at hinfo
    cases hinfo
  · rw [hsome] at hinfo
    cases hinfo
    constructor
    · rw [Member.code?_of_later hr]
      rw [← Member.code?_of_later (later_of_encode hencode)] at hold
      exact Member.code?_replaceCode hold
    · have ho := Method.optimize_of_changed hchanged
      refine ⟨_, rfl, parse_withBody hcode hbody ho hencode, fun a ha name hname heq => ?_⟩
      rw [Attribute.name?_of_later hr] at heq
      have hkept := (List.mem_filter.1 ha).2
      simp [heq, hname] at hkept

/-- Whatever happens to a method whose body does not block, its new body does not.
-/
theorem noInterfaceCalls_outcomeOf (h : outcomeOf settings m p = (outcome, q)) (hr : Later q r)
    (hm : ∀ info ∈ m.code? p, bodyBlocker? p info = none) :
    ∀ info ∈ (outcome.applied q m).code? r, ∀ body ∈ decodeBody? r info,
      NoInterfaceCalls r body.code := by
  intro info hinfo body' hbody'
  obtain ⟨hnone, hlater⟩ | ⟨old, code, body, e, hold, hcode, hbody, hchanged, hencode, hsome⟩ :=
    outcomeOf_cases h
  · rw [MethodOutcome.applied_of_none hnone, Member.code?_of_later (hlater.trans hr)] at hinfo
    obtain ⟨body, hbody, hcalls⟩ :=
      bodyBlocker?_eq_none_iff.1 (bodyBlocker?_of_later (hlater.trans hr) (hm info hinfo))
    obtain rfl : body = body' := Option.some.inj (hbody.symm.trans hbody')
    exact hcalls
  · rw [MethodOutcome.applied_of_some hsome] at hinfo
    have hnew := (isStripped_outcomeOf h hsome hr).1
    obtain rfl := Option.some.inj (hnew.symm.trans hinfo)
    exact noInterfaceCalls_withBody hcode hbody (Method.optimize_of_changed hchanged) hencode hr
      (hm old hold) hbody'

/-! ### All methods -/

section Run

variable {methods methods' : List Member} {report report' : ClassReport}
  (h : methods.mapM (rewriteMethod settings) (p, report) = (methods', q, report'))
include h

/-- The pool only grows, and the methods rewritten are counted. -/
theorem later_run : Later p q ∧
    report'.changed = report.changed + (outcomes settings methods p).countP (·.info?.isSome) ∧
    report'.loweredFrom = report.loweredFrom ∧ report'.passedThrough = report.passedThrough := by
  induction methods generalizing p report methods' with
  | nil =>
      cases h
      exact ⟨.refl, rfl, rfl, rfl⟩
  | cons m methods ih =>
      obtain ⟨rest, middle, rfl, hrest, hcounts⟩ := mapM_cons_eq h
      obtain ⟨hlater, hchanged, hlowered, hpassed⟩ := ih hrest
      refine ⟨(later_outcomeOf settings m p).trans hlater, ?_, hlowered.trans hcounts.loweredFrom,
        hpassed.trans hcounts.passedThrough⟩
      rw [hchanged, hcounts.changed, outcomes, List.countP_cons]
      omega

theorem isStripped_run : List.Forall₂ (fun outcome m' => ∀ info ∈ outcome.info?,
      m'.code? q = some info ∧ IsStripped q info) (outcomes settings methods p) methods' := by
  induction methods generalizing p report methods' with
  | nil =>
      cases h
      exact .nil
  | cons m methods ih =>
      obtain ⟨rest, middle, rfl, hrest, -⟩ := mapM_cons_eq h
      refine .cons (fun info hinfo => ?_) (ih hrest)
      rw [MethodOutcome.applied_of_some hinfo]
      exact isStripped_outcomeOf rfl hinfo (later_run hrest).1

theorem noInterfaceCalls_run
    (hmethods : ∀ m ∈ methods, ∀ info ∈ m.code? p, bodyBlocker? p info = none) :
    ∀ m' ∈ methods', ∀ info ∈ m'.code? q, ∀ body ∈ decodeBody? q info,
      NoInterfaceCalls q body.code := by
  induction methods generalizing p report methods' with
  | nil =>
      cases h
      simp
  | cons m methods ih =>
      obtain ⟨rest, middle, rfl, hrest, -⟩ := mapM_cons_eq h
      rw [List.forall_mem_cons] at hmethods ⊢
      refine ⟨noInterfaceCalls_outcomeOf rfl (later_run hrest).1 hmethods.1, ih hrest ?_⟩
      -- The bodies of the other methods have been looked at with an earlier pool.
      have hlater := later_outcomeOf settings m p
      intro m' hm' info hinfo
      rw [Member.code?_of_later hlater] at hinfo
      exact bodyBlocker?_of_later hlater (hmethods.2 m' hm' info hinfo)

/-- Without a method rewritten, all methods stay. -/
theorem methods_run (hchanged : report'.changed = report.changed) : methods' = methods := by
  induction methods generalizing p report methods' with
  | nil =>
      cases h
      rfl
  | cons m methods ih =>
      obtain ⟨rest, middle, rfl, hrest, hcounts⟩ := mapM_cons_eq h
      have hmiddle := hcounts.changed
      have hcount := (later_run hrest).2.1
      have hnone : (outcomeOf settings m p).1.info? = none := by
        cases hinfo : (outcomeOf settings m p).1.info? with
        | none => rfl
        | some info =>
            rw [hinfo, Option.isSome_some, if_pos rfl] at hmiddle
            omega
      rw [hnone] at hmiddle
      rw [MethodOutcome.applied_of_none hnone, ih hrest (hchanged.trans hmiddle.symm)]

end Run

/-! ### The class -/

variable {c : ClassFile} {target : UInt16}

/-- All features that need a newer version, one by one. -/
theorem featureBlocker?_eq_none_iff : c.featureBlocker? = none ↔
    c.pool.hasDynamic = false ∧ c.pool.hasModular = false ∧ c.versionBoundAttribute? = none ∧
      c.hasInterfaceBodies = false ∧
      ∀ m ∈ c.methods, ∀ info ∈ m.code? c.pool, bodyBlocker? c.pool info = none := by
  unfold featureBlocker?
  cases c.pool.hasDynamic with
  | true => simp
  | false =>
      cases c.pool.hasModular with
      | true => simp
      | false =>
          cases c.versionBoundAttribute? with
          | some name => simp
          | none =>
              cases c.hasInterfaceBodies with
              | true => simp
              | false =>
                  simp only [Bool.false_eq_true, if_false, true_and, List.findSome?_eq_none_iff,
                    List.mem_filterMap, forall_exists_index, and_imp, Option.mem_def]
                  exact ⟨fun h m hm info => h info m hm, fun h info m hm => h m hm info⟩

/-- Features matter only if the version is going to be lowered; the bound on the
target is checked in any case. -/
theorem loweringBlocker?_eq_none_iff : c.loweringBlocker? target = none ↔
    min c.majorVersion target ≤ Settings.maxTargetVersion ∧
      (target < c.majorVersion → c.featureBlocker? = none) := by
  unfold loweringBlocker?
  dsimp only
  by_cases hhigh : Settings.maxTargetVersion < min c.majorVersion target
  · rw [if_pos hhigh]
    exact iff_of_false (by simp) fun h => UInt16.not_le.2 hhigh h.1
  · rw [if_neg hhigh, and_iff_right (UInt16.not_lt.1 hhigh)]
    by_cases hlow : c.majorVersion ≤ target
    · rw [if_pos hlow]
      exact iff_of_true rfl fun h => absurd hlow (UInt16.not_le.2 h)
    · rw [if_neg hlow]
      exact ⟨fun h _ => h, fun h => h (UInt16.not_le.1 hlow)⟩

/-- What stands against a lower version does not come with numbers in the
pool. -/
theorem featureBlocker?_of_later (h : Later c.pool q) (hc : c.featureBlocker? = none) :
    { c with pool := q }.featureBlocker? = none := by
  obtain ⟨hdynamic, hmodular, hattribute, hbodies, hmethods⟩ := featureBlocker?_eq_none_iff.1 hc
  refine featureBlocker?_eq_none_iff.2 ⟨ConstantPool.hasDynamic_of_later h hdynamic,
    ConstantPool.hasModular_of_later h hmodular, ?_, ?_, fun m hm info hinfo => ?_⟩
  · simpa only [versionBoundAttribute?, Attribute.name?_of_later h] using hattribute
  · simpa only [hasInterfaceBodies, isInterface, Member.name?, ConstantPool.utf8?_of_later h]
      using hbodies
  · rw [Member.code?_of_later h] at hinfo
    exact bodyBlocker?_of_later h (hmethods m hm info hinfo)

/-- The class uses nothing that came with later versions: neither constants nor
attributes of its own, nor, in a body that can be decoded, direct calls of
interface methods. -/
structure UsesNothingNewer (c : ClassFile) : Prop where
  constants : ∀ k ∈ c.pool.constants, k.isDynamic = false ∧ k.isModular = false
  attributes : ∀ a ∈ c.attributes, ∀ name ∈ versionBound, a.name? c.pool ≠ some name
  calls : ∀ m ∈ c.methods, ∀ info ∈ m.code? c.pool, ∀ body ∈ decodeBody? c.pool info,
    ∀ opcode operands, .verbatim opcode operands ∈ body.code →
      opcode = Opcode.invokestatic ∨ opcode = Opcode.invokespecial →
      ∀ index ∈ Instruction.poolIndex? opcode operands, ∀ owner nameAndType,
        c.pool.get? index ≠ some (.interfaceMethodRef owner nameAndType)

/-- No static or special call of the body refers to a method of an interface. -/
theorem NoInterfaceCalls.get?_ne {code : List (Instruction Nat)} (h : NoInterfaceCalls p code)
    {opcode : Opcode} {operands : Bytes} (hmem : .verbatim opcode operands ∈ code)
    (hopcode : opcode = Opcode.invokestatic ∨ opcode = Opcode.invokespecial) {index : UInt16}
    (hindex : index ∈ Instruction.poolIndex? opcode operands) (owner nameAndType : UInt16) :
    p.get? index ≠ some (.interfaceMethodRef owner nameAndType) := by
  intro hget
  have hmethod : p.isInterfaceMethod index = true := by
    simp only [ConstantPool.isInterfaceMethod, hget]
  have hcalls : ¬ (opcode = Opcode.invokestatic ∨ opcode = Opcode.invokespecial) := by
    simpa [callsInterfaceMethod, Option.mem_def.1 hindex, hmethod] using h _ hmem
  exact hcalls hopcode

/-- A class without anything that stands against a lower version is rewritten to
one without. -/
theorem usesNothingNewer_run {methods : List Member} {report : ClassReport} {c' : ClassFile}
    (hrun : c.methods.mapM (rewriteMethod settings) (c.pool, {}) = (methods, q, report))
    (hc : c.featureBlocker? = none) (hpool : c'.pool = q) (hmethods : c'.methods = methods)
    (hattributes : c'.attributes = c.attributes) : c'.UsesNothingNewer := by
  obtain ⟨hdynamic, hmodular, hattribute, -, hbodies⟩ := featureBlocker?_eq_none_iff.1 hc
  have hlater := (later_run hrun).1
  subst hpool hmethods
  refine ⟨fun k hk => ?_, fun a ha name hname heq => ?_, fun m hm info hinfo body hbody => ?_⟩
  · have hdynamic' := ConstantPool.hasDynamic_of_later hlater hdynamic
    have hmodular' := ConstantPool.hasModular_of_later hlater hmodular
    simp only [ConstantPool.hasDynamic, ConstantPool.hasModular, Array.any_eq_false',
      Bool.not_eq_true] at hdynamic' hmodular'
    exact ⟨hdynamic' k hk, hmodular' k hk⟩
  · rw [Attribute.name?_of_later hlater] at heq
    rw [hattributes] at ha
    have hnone := List.find?_eq_none.1 hattribute name (List.mem_filterMap.2 ⟨a, ha, heq⟩)
    exact hnone (by simpa using hname)
  · intro opcode operands hmem hopcode index hindex owner nameAndType
    exact (noInterfaceCalls_run hrun hbodies m hm info hinfo body hbody).get?_ne hmem hopcode
      hindex owner nameAndType

/-- How a class of a suitable version is rewritten, as far as versions are
concerned. -/
structure VersionSafe (settings : Settings) (c c' : ClassFile) (report : ClassReport) : Prop where
  passed : report.passedThrough = false
  /-- The methods counted as changed are those that were rewritten. -/
  counted : report.changed = (outcomes settings c.methods c.pool).countP (·.info?.isSome)
  untouched : report.changed = 0 → c'.majorVersion = c.majorVersion ∧
    c'.minorVersion = c.minorVersion ∧ report.loweredFrom = none
  lowered : 0 < report.changed → c'.majorVersion = min c.majorVersion settings.targetVersion ∧
    c'.majorVersion ≤ 50 ∧ report.loweredFrom =
      if settings.targetVersion < c.majorVersion then some c.majorVersion else none
  stripped : List.Forall₂ (fun outcome m' => ∀ info ∈ outcome.info?,
    m'.code? c'.pool = some info ∧ IsStripped c'.pool info)
      (outcomes settings c.methods c.pool) c'.methods
  features : report.loweredFrom ≠ none → c'.UsesNothingNewer
  unblocked : c'.loweringBlocker? settings.targetVersion = none

/-- **Rewriting is safe with regard to versions**, for any settings. A class that
cannot be lowered is left alone. Any other one ends up, if a method of it is
rewritten, at a version that is checked without stack map frames, with nothing
in it that the version does not know. -/
theorem optimize_versionSafe (settings : Settings) (c : ClassFile) :
    (∀ blocker, c.loweringBlocker? settings.targetVersion = some blocker →
      c.optimize settings = (c, { passedThrough := true })) ∧
    (c.loweringBlocker? settings.targetVersion = none →
      VersionSafe settings c (c.optimize settings).1 (c.optimize settings).2) := by
  refine ⟨fun blocker hblocker => by simp only [optimize, hblocker], fun hnone => ?_⟩
  have hoptimize : c.optimize settings = c.rewriteMethods settings := by
    simp only [optimize, hnone]
  rcases hrun : c.methods.mapM (rewriteMethod settings) (c.pool, {}) with ⟨methods, q, report⟩
  obtain ⟨hlater, hchanged, hlowered, hpassed⟩ := later_run hrun
  obtain ⟨hmin, hfeatures⟩ := loweringBlocker?_eq_none_iff.1 hnone
  rw [hoptimize, rewriteMethods]
  simp only [StateT.run, hrun]
  by_cases hlow : 0 < report.changed ∧ settings.targetVersion < c.majorVersion
  · rw [if_pos hlow]
    have hversion : min c.majorVersion settings.targetVersion = settings.targetVersion :=
      if_neg (UInt16.not_le.2 hlow.2)
    have hagain : min settings.targetVersion settings.targetVersion = settings.targetVersion :=
      if_pos (UInt16.le_refl _)
    rw [hversion] at hmin
    exact {
      passed := hpassed
      counted := hchanged.trans (Nat.zero_add _)
      untouched := fun hzero => absurd hzero (Nat.ne_of_gt hlow.1)
      lowered := fun _ => ⟨hversion.symm, hmin, (if_pos hlow.2).symm⟩
      stripped := isStripped_run hrun
      features := fun _ => usesNothingNewer_run hrun (hfeatures hlow.2) rfl rfl rfl
      unblocked := loweringBlocker?_eq_none_iff.2
        ⟨hagain.trans_le hmin, fun hlt => absurd hlt (UInt16.lt_irrefl _)⟩ }
  · rw [if_neg hlow]
    exact {
      passed := hpassed
      counted := hchanged.trans (Nat.zero_add _)
      untouched := fun _ => ⟨rfl, rfl, hlowered⟩
      lowered := by
        intro hpos
        have hhigh : ¬ settings.targetVersion < c.majorVersion := fun hlt => hlow ⟨hpos, hlt⟩
        have hversion : min c.majorVersion settings.targetVersion = c.majorVersion :=
          if_pos (UInt16.not_lt.1 hhigh)
        exact ⟨hversion.symm, hversion ▸ hmin, hlowered.trans (if_neg hhigh).symm⟩
      stripped := isStripped_run hrun
      features := fun hne => absurd hlowered hne
      unblocked := by
        refine loweringBlocker?_eq_none_iff.2 ⟨hmin, fun hlt => ?_⟩
        -- No method was rewritten, and only the pool may have grown.
        have hzero : report.changed = 0 := Nat.eq_zero_of_not_pos fun hpos => hlow ⟨hpos, hlt⟩
        rw [methods_run hrun hzero]
        exact featureBlocker?_of_later hlater (hfeatures hlt) }

/-- A class of a later version: its first method computes a number and comes with
stack map frames, the second one only returns. -/
def framedSum : ClassFile where
  minorVersion := 0
  majorVersion := 52
  pool := ⟨#[.utf8 "Code", .utf8 "()I", .utf8 "StackMapTable", .utf8 "()V"]⟩
  access := 0x21
  thisClass := 0
  superClass := 0
  interfaces := []
  fields := []
  methods :=
    [⟨9, 1, 2, [⟨1, CodeAttribute.toBytes
      ⟨2, 0, [0x11, 0x75, 0x30, 0x11, 0x75, 0x30, 0x60, 0xac], [], [⟨3, [0, 0]⟩]⟩⟩]⟩,
    ⟨9, 1, 4, [⟨1, CodeAttribute.toBytes ⟨0, 0, [0xb1], [], []⟩⟩]⟩]
  attributes := []

/-- The same class with a constant that needs dynamic linkage. -/
def linkedSum : ClassFile := { framedSum with pool := framedSum.pool.push (.methodType 2) }

/-- A class that is lowered, and one with a dynamic constant that is not. -/
theorem optimize_versionSafe_framedSum :
    framedSum.loweringBlocker? 50 = none ∧ (framedSum.optimize {}).2.loweredFrom = some 52 ∧
      VersionSafe {} framedSum (framedSum.optimize {}).1 (framedSum.optimize {}).2 ∧
      linkedSum.loweringBlocker? 50 = some .dynamicConstants ∧
      linkedSum.optimize {} = (linkedSum, { passedThrough := true }) := by
  have hnone : framedSum.loweringBlocker? 50 = none := by decide +kernel
  have hlowered : (framedSum.optimize {}).2.loweredFrom = some 52 := by decide +kernel
  have hblocker : linkedSum.loweringBlocker? 50 = some .dynamicConstants := by decide +kernel
  exact ⟨hnone, hlowered, (optimize_versionSafe {} framedSum).2 hnone, hblocker,
    (optimize_versionSafe {} linkedSum).1 _ hblocker⟩

end ClassFile

end JvmOptimizer
