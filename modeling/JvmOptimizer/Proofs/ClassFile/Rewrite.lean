import JvmOptimizer.Proofs.ClassFile.CodeAttribute
import JvmOptimizer.Proofs.ClassFile.Pool
import JvmOptimizer.Proofs.Optimize.WellFormed

/-!
# Rewritten classes

A class is rewritten method by method, and its pool grows from one to the next.
A method that was rewritten is read back as what the optimizer made of it, with
the pool that the class has in the end (`ClassFile.optimize_carries`): its own
numbers keep their indices, and no load that was not resolved becomes so.
-/

namespace JvmOptimizer

open Code Pool

/-! ### Members -/

namespace Member

/-- The `Code` attribute of the member, read with the pool, has the body of the
method and its limits. -/
def Carries (pool : ConstantPool) (member : Member) (m : Method) : Prop :=
  ∃ info code body, member.code? pool = some info ∧ CodeAttribute.parse info = .ok code ∧
    decode pool code.code code.exceptions = .ok body ∧ body.sameBody m ∧
    code.maxStack = m.maxStack ∧ code.maxLocals = m.maxLocals

/-- With the pool `p` the body of `old` is optimized to something else, which
`new` carries with the pool `q`. -/
def Rewrites (settings : Settings) (p q : ConstantPool) (old new : Member) : Prop :=
  ∃ info code body, old.code? p = some info ∧ CodeAttribute.parse info = .ok code ∧
    ClassFile.methodBody? p old code = some body ∧ (body.optimizeOrKeep p settings).changed ∧
    new.Carries q (body.optimizeOrKeep p settings).method

/-- If the member has a body, its loads name slots in use and control cannot pass
over its end. -/
def Proper (pool : ConstantPool) (member : Member) : Prop :=
  ∀ info ∈ member.code? pool, ∀ body ∈ ClassFile.decodeBody? pool info,
    LoadsInUse pool body ∧ body.endsFlow

instance (pool : ConstantPool) (member : Member) : Decidable (member.Proper pool) :=
  inferInstanceAs (Decidable (∀ info ∈ member.code? pool, ∀ body ∈ _, _ ∧ _))

/-- What makes a method proper, for the one body that its code is decoded to. -/
theorem Proper.decode {pool : ConstantPool} {member : Member} {info : Bytes}
    {code : CodeAttribute} {body : Method} (h : member.Proper pool)
    (hinfo : member.code? pool = some info) (hcode : CodeAttribute.parse info = .ok code)
    (hbody : decode pool code.code code.exceptions = .ok body) :
    LoadsInUse pool body ∧ body.endsFlow := by
  refine h info hinfo body ?_
  simp [ClassFile.decodeBody?, hcode, hbody, Except.toOption]

end Member

/-- What is found first is still found first when it is changed and still looked
for. -/
theorem List.find?_modify {α : Type} {P : α → Bool} {f : α → α} (hf : ∀ a, P (f a) = P a)
    {l : List α} {i : Nat} (h : l.findIdx? P = some i) :
    (l.modify i f).find? P = (l.find? P).map f := by
  induction l generalizing i with
  | nil => cases h
  | cons a l ih =>
      rw [List.findIdx?_cons] at h
      by_cases ha : P a
      · rw [if_pos ha] at h
        cases h
        simp [ha, hf]
      · rw [if_neg ha] at h
        obtain ⟨j, hj, rfl⟩ := Option.map_eq_some_iff.1 h
        simp [ha, ih hj]

namespace Member

/-- The new contents are found under the name of the old ones. -/
theorem code?_replaceCode {pool : ConstantPool} {m : Member} {info info' : Bytes}
    (h : m.code? pool = some info) : (m.replaceCode pool info').code? pool = some info' := by
  obtain ⟨a, ha, -⟩ := Option.map_eq_some_iff.1 h
  have hsome : (m.codeIndex? pool).isSome := by
    rw [codeIndex?, List.findIdx?_isSome, List.any_eq_true]
    exact ⟨a, List.mem_of_find?_eq_some ha, by simpa using List.find?_some ha⟩
  obtain ⟨i, hi⟩ := Option.isSome_iff_exists.1 hsome
  have hmodify := List.find?_modify (f := fun a => { a with info := info' }) (fun _ => rfl) hi
  simp only [code?, replaceCode, hi, hmodify, ha]
  rfl

end Member

namespace Method

variable {π : Type} [Pool π] {pool : π} {settings : Settings} {m : Method} {o : Optimized}

theorem optimize_of_changed (h : (m.optimizeOrKeep pool settings).changed) :
    m.optimize pool settings = .ok (m.optimizeOrKeep pool settings) := by
  unfold optimizeOrKeep at h ⊢
  cases hopt : m.optimize pool settings with
  | ok o => rfl
  | error e =>
      rw [hopt] at h
      cases h

/-- An outcome counts as changed only if the body is another one. -/
theorem not_sameBody_of_changed (h : m.optimize pool settings = .ok o) (hchanged : o.changed) :
    ¬ o.method.sameBody m := by
  obtain ⟨-, s, -, heq, hmethod⟩ := optimize_eq_ok.1 h
  rw [hchanged] at heq
  rw [hmethod, if_pos hchanged]
  change ¬ (s.flat m).sameBody m
  simpa using heq

end Method

namespace ClassFile

variable {b p q r : ConstantPool} {m m' : Member} {code : CodeAttribute} {body : Method}
  {info : Bytes} {e : Encoded} {o : Optimized} {settings : Settings}

/-! ### Bodies -/

/-- The body of a method is what its code is decoded to, with limits. -/
theorem methodBody?_eq_some (h : methodBody? p m code = some body) :
    ∃ decoded slots, decode p code.code code.exceptions = .ok decoded ∧
      body = { decoded with
        maxStack := code.maxStack
        maxLocals := code.maxLocals
        parameterSlots := slots } := by
  simp only [methodBody?, Option.bind_eq_bind, Option.bind_eq_some_iff, Option.pure_def] at h
  obtain ⟨descriptor, -, shape, -, decoded, hdecoded, heq⟩ := h
  cases heq
  refine ⟨decoded, _, ?_, rfl⟩
  cases hd : decode p code.code code.exceptions with
  | error e =>
      rw [hd] at hdecoded
      cases hdecoded
  | ok decoded' =>
      rw [hd] at hdecoded
      cases hdecoded
      rfl

/-- A later pool gives the same body, unless a load that was not looked into
before finds a number there now. -/
theorem methodBody?_of_later (hp : Later b p) (hextends : Extends b p)
    (hloads : ∀ {decoded}, decode b code.code code.exceptions = .ok decoded →
      LoadsInUse b decoded) : methodBody? p m code = methodBody? b m code := by
  simp only [methodBody?, Member.descriptor?_of_later hp, decode_of_extends hextends hloads]

/-- What a method is optimized to can be written. -/
theorem wellFormed_optimize (hbody : methodBody? p m code = some body)
    (ho : body.optimize p settings = .ok o) :
    WellFormed p o.method ∧ (∀ insn ∈ o.method.code, HasKeys insn) ∧
      o.method.handlers.length ≤ code.exceptions.length := by
  obtain ⟨decoded, slots, hdecoded, rfl⟩ := methodBody?_eq_some hbody
  obtain ⟨hform, hkeys⟩ := wellFormed_decode hdecoded
  obtain ⟨s, -, -, -, hedited⟩ := Method.exists_passes ho
  refine ⟨hedited.wellFormed ⟨hform.target, hform.form, hform.handler⟩,
    hedited.hasKeys hkeys, ?_⟩
  obtain ⟨found, -, -, hhandlers⟩ := decode_eq_ok hdecoded
  have hcount := List.length_of_mapM_eq_ok hhandlers
  rw [List.length_zipIdx] at hcount
  rw [hedited.handlers, List.length_map, ← hcount]
  exact List.length_filter_le _ _

/-- If its loads name slots in use, it can be written with all later pools as
well. -/
theorem wellFormed_optimized (hbody : methodBody? p m code = some body)
    (hloads : LoadsInUse p body) (ho : body.optimize p settings = .ok o) (hq : Extends p q) :
    WellFormed q o.method ∧ (∀ insn ∈ o.method.code, HasKeys insn) ∧
      o.method.handlers.length ≤ code.exceptions.length := by
  obtain ⟨hwell, hkeys, hhandlers⟩ := wellFormed_optimize hbody ho
  obtain ⟨s, -, -, -, hedited⟩ := Method.exists_passes ho
  exact ⟨hwell.of_extends (hedited.loadsInUse hloads) hq, hkeys, hhandlers⟩

/-- What encoding allows in length is what the fields of the attribute can count.
-/
theorem fits_withBody (hcode : code.Fits) (hne : e.code ≠ []) (hlength : e.code.length ≤ 65535)
    (hexceptions : e.exceptions.length ≤ code.exceptions.length) (b : Method) :
    (withBody p code b e).Fits := by
  have hlt : e.code.length < 2 ^ 32 := by omega
  have hbody : CodeAttribute.Fits { code with
      maxStack := b.maxStack
      maxLocals := b.maxLocals
      code := e.code
      exceptions := e.exceptions } :=
    ⟨hne, hlt, hexceptions.trans_lt hcode.exceptions, hcode.attributes, hcode.contents⟩
  exact hbody.strip p offsetDependent

/-! ### One method -/

theorem later_of_encode {b : Method} {outcome : Except EncodeError Encoded}
    (h : encode b p = (outcome, q)) : Later p q := by
  have hlater := later_encode b p
  rwa [h] at hlater

/-- A body that is not rewritten may still have left numbers in the pool. -/
theorem rewriteBody_cases {outcome : MethodOutcome}
    (h : rewriteBody settings m info p = (outcome, q)) :
    ((∀ info', outcome ≠ .rewritten info') ∧ Later p q) ∨
      ∃ code body e, CodeAttribute.parse info = .ok code ∧ methodBody? p m code = some body ∧
        (body.optimizeOrKeep p settings).changed ∧
        encode (body.optimizeOrKeep p settings).method p = (.ok e, q) ∧
        outcome = .rewritten
          (withBody q code (body.optimizeOrKeep p settings).method e).toBytes := by
  -- Four ways lead to no new contents: the attribute or the body is malformed, nothing
  -- changed, or the result cannot be written. Only the last one adds to the pool.
  unfold rewriteBody at h
  split at h
  · cases h
    exact .inl ⟨nofun, .refl⟩
  · rename_i code hcode
    split at h
    · cases h
      exact .inl ⟨nofun, .refl⟩
    · rename_i body hbody
      dsimp only at h
      split at h
      · rename_i hchanged
        split at h
        · rename_i hencode
          cases h
          exact .inl ⟨nofun, later_of_encode hencode⟩
        · rename_i e pool hencode
          cases h
          exact .inr ⟨code, body, e, hcode, hbody, hchanged, hencode, rfl⟩
      · cases h
        exact .inl ⟨nofun, .refl⟩

/-- What happens to a method, and the pool that it leaves. -/
def outcomeOf (settings : Settings) (m : Member) (pool : ConstantPool) :
    MethodOutcome × ConstantPool :=
  match m.code? pool with
  | none => (.unchanged, pool)
  | some info => rewriteBody settings m info pool

end ClassFile

namespace MethodOutcome

/-- The new contents of the `Code` attribute, if there are any. -/
def info? : MethodOutcome → Option Bytes
  | rewritten info => some info
  | _ => none

/-- Could the body not be decoded or encoded? -/
def isFailed : MethodOutcome → Bool
  | failed => true
  | _ => false

theorem info?_of_isFailed {outcome : MethodOutcome} (h : outcome.isFailed) :
    outcome.info? = none := by
  cases outcome with
  | failed => rfl
  | unchanged => rfl
  | rewritten info => cases h

/-- The method that is left, with the pool that the outcome left. -/
def applied (outcome : MethodOutcome) (pool : ConstantPool) (m : Member) : Member :=
  outcome.info?.elim m (m.replaceCode pool)

theorem applied_of_none {outcome : MethodOutcome} {pool : ConstantPool} {m : Member}
    (h : outcome.info? = none) : outcome.applied pool m = m := by
  rw [applied, h, Option.elim_none]

theorem applied_of_some {outcome : MethodOutcome} {pool : ConstantPool} {m : Member}
    {info : Bytes} (h : outcome.info? = some info) :
    outcome.applied pool m = m.replaceCode pool info := by
  rw [applied, h, Option.elim_some]

end MethodOutcome

/-- The second report counts one more method than the first, which has code or
not and ended as the outcome says. -/
structure ClassReport.Counts (hasCode : Bool) (outcome : MethodOutcome)
    (report report' : ClassReport) : Prop where
  methods : report'.methods = report.methods + (if hasCode then 1 else 0)
  changed : report'.changed = report.changed + (if outcome.info?.isSome then 1 else 0)
  skipped : report'.skipped = report.skipped + (if outcome.isFailed then 1 else 0)
  loweredFrom : report'.loweredFrom = report.loweredFrom
  passedThrough : report'.passedThrough = report.passedThrough

namespace ClassFile

variable {b p q r : ConstantPool} {m m' : Member} {code : CodeAttribute} {body : Method}
  {info : Bytes} {e : Encoded} {o : Optimized} {settings : Settings} {outcome : MethodOutcome}

/-- Rewriting a method does what its outcome says, and counts it. -/
theorem rewriteMethod_apply (settings : Settings) (m : Member) (p : ConstantPool)
    (report : ClassReport) : ∃ report', rewriteMethod settings m (p, report) =
        ((outcomeOf settings m p).1.applied (outcomeOf settings m p).2 m,
          (outcomeOf settings m p).2, report') ∧
      report.Counts (m.code? p).isSome (outcomeOf settings m p).1 report' := by
  cases hinfo : m.code? p with
  | none =>
      have houtcome : outcomeOf settings m p = (.unchanged, p) := by simp only [outcomeOf, hinfo]
      rw [houtcome]
      refine ⟨report, ?_, rfl, rfl, rfl, rfl, rfl⟩
      simp only [rewriteMethod, bind, StateT.bind, get, getThe, MonadStateOf.get, StateT.get, pure,
        hinfo]
      rfl
  | some info =>
      rcases hrewrite : rewriteBody settings m info p with ⟨outcome, q⟩
      have houtcome : outcomeOf settings m p = (outcome, q) := by
        simp only [outcomeOf, hinfo, hrewrite]
      rw [houtcome]
      simp only [rewriteMethod, bind, StateT.bind, get, getThe, MonadStateOf.get, StateT.get, pure,
        hinfo, hrewrite]
      cases outcome with
      | failed => exact ⟨_, rfl, rfl, rfl, rfl, rfl, rfl⟩
      | unchanged => exact ⟨_, rfl, rfl, rfl, rfl, rfl, rfl⟩
      | rewritten info' => exact ⟨_, rfl, rfl, rfl, rfl, rfl, rfl⟩

/-- The first method, and the run over the others. -/
theorem mapM_cons_eq {methods methods' : List Member} {report report' : ClassReport}
    (h : (m :: methods).mapM (rewriteMethod settings) (p, report) = (methods', q, report')) :
    ∃ rest middle,
      methods' = (outcomeOf settings m p).1.applied (outcomeOf settings m p).2 m :: rest ∧
      methods.mapM (rewriteMethod settings) ((outcomeOf settings m p).2, middle) =
        (rest, q, report') ∧
      report.Counts (m.code? p).isSome (outcomeOf settings m p).1 middle := by
  obtain ⟨middle, hstep, hcounts⟩ := rewriteMethod_apply settings m p report
  rcases hrest : methods.mapM (rewriteMethod settings) ((outcomeOf settings m p).2, middle) with
    ⟨rest, q', last⟩
  have hmapM : (m :: methods).mapM (rewriteMethod settings) (p, report) =
      ((outcomeOf settings m p).1.applied (outcomeOf settings m p).2 m :: rest, q', last) := by
    rw [List.mapM_cons]
    simp only [bind, StateT.bind, hstep, hrest]
    rfl
  rw [hmapM] at h
  cases h
  exact ⟨rest, middle, rfl, hrest, hcounts⟩

/-- What rewriting may do to a method and to the pool, and how many methods it
changes. -/
inductive Outcome (settings : Settings) (m : Member) (p : ConstantPool) :
    Member → ConstantPool → (changed : Nat) → Prop
  | kept {q : ConstantPool} (later : Later p q) : Outcome settings m p m q 0
  | rewritten {q : ConstantPool} {info : Bytes} {code : CodeAttribute} {body : Method}
      {e : Encoded} (hinfo : m.code? p = some info)
      (hcode : CodeAttribute.parse info = .ok code) (hbody : methodBody? p m code = some body)
      (hchanged : (body.optimizeOrKeep p settings).changed)
      (hencode : encode (body.optimizeOrKeep p settings).method p = (.ok e, q)) :
      Outcome settings m p (m.replaceCode q
        (withBody q code (body.optimizeOrKeep p settings).method e).toBytes) q 1

theorem Outcome.later {changed : Nat} (h : Outcome settings m p m' q changed) :
    Later p q := by
  cases h with
  | kept later => exact later
  | rewritten _ _ _ _ hencode => exact later_of_encode hencode

/-- A body is rewritten to what it was optimized to; otherwise the method stays. -/
theorem outcomeOf_cases (h : outcomeOf settings m p = (outcome, q)) :
    (outcome.info? = none ∧ Later p q) ∨
      ∃ info code body e, m.code? p = some info ∧ CodeAttribute.parse info = .ok code ∧
        methodBody? p m code = some body ∧ (body.optimizeOrKeep p settings).changed ∧
        encode (body.optimizeOrKeep p settings).method p = (.ok e, q) ∧
        outcome.info? =
          some (withBody q code (body.optimizeOrKeep p settings).method e).toBytes := by
  unfold outcomeOf at h
  cases hinfo : m.code? p with
  | none =>
      simp only [hinfo] at h
      cases h
      exact .inl ⟨rfl, .refl⟩
  | some info =>
      simp only [hinfo] at h
      obtain ⟨hnot, hlater⟩ | ⟨code, body, e, hcode, hbody, hchanged, hencode, rfl⟩ :=
        rewriteBody_cases h
      · refine .inl ⟨?_, hlater⟩
        cases outcome with
        | rewritten info' => exact absurd rfl (hnot info')
        | _ => rfl
      · exact .inr ⟨info, code, body, e, rfl, hcode, hbody, hchanged, hencode, rfl⟩

/-- What happened to a method, read off its outcome. -/
theorem outcome_outcomeOf (settings : Settings) (m : Member) (p : ConstantPool) :
    Outcome settings m p ((outcomeOf settings m p).1.applied (outcomeOf settings m p).2 m)
      (outcomeOf settings m p).2
      (if (outcomeOf settings m p).1.info?.isSome then 1 else 0) := by
  rcases houtcome : outcomeOf settings m p with ⟨outcome, q⟩
  obtain ⟨hnone, hlater⟩ | ⟨info, code, body, e, hinfo, hcode, hbody, hchanged, hencode, hsome⟩ :=
    outcomeOf_cases houtcome
  · simp only [MethodOutcome.applied_of_none hnone, hnone]
    exact .kept hlater
  · simp only [MethodOutcome.applied_of_some hsome, hsome]
    exact .rewritten hinfo hcode hbody hchanged hencode

/-- Whatever happens to a method, the pool only gets numbers. -/
theorem later_outcomeOf (settings : Settings) (m : Member) (p : ConstantPool) :
    Later p (outcomeOf settings m p).2 :=
  (outcome_outcomeOf settings m p).later

/-- A rewritten method is read back as what it was optimized to, with every later
pool. -/
theorem carries_replaceCode (hsize : Pool.size p ≤ 65535) (hinfo : m.code? p = some info)
    (hcode : CodeAttribute.parse info = .ok code) (hbody : methodBody? p m code = some body)
    (hloads : LoadsInUse p body) (hends : body.endsFlow)
    (ho : body.optimize p settings = .ok o) (hencode : encode o.method p = (.ok e, q))
    (hr : Later q r) :
    (m.replaceCode q (withBody q code o.method e).toBytes).Carries r o.method := by
  have hlater := later_of_encode hencode
  obtain ⟨hpq, hsizeq⟩ := hlater.grows hsize
  obtain ⟨hqr, -⟩ := hr.grows hsizeq
  obtain ⟨hwell, hkeys, hhandlers⟩ := wellFormed_optimized hbody hloads ho hpq
  obtain ⟨hwell', -, -⟩ := wellFormed_optimized hbody hloads ho (hpq.trans hqr)
  have hdecode := decode_encode hsize hencode hqr hwell' hkeys
  obtain ⟨hlength, hexceptions⟩ := length_encode hsize hencode hwell hkeys
  -- Code must not be empty, and a body that ends its flow has an instruction.
  have hne : e.code ≠ [] := by
    intro hnil
    rw [hnil] at hdecode
    have hcode := code_eq_nil_of_decode hdecode
    exact Method.code_ne_nil_of_optimize ho hends hcode
  have hfits := fits_withBody (CodeAttribute.fits_of_parse hcode) hne hlength
    (hexceptions.trans hhandlers) (p := q) o.method
  refine ⟨_, _, _, ?_, CodeAttribute.parse_toBytes hfits, hdecode, ?_, rfl, rfl⟩
  · rw [Member.code?_of_later hr]
    rw [← Member.code?_of_later hlater] at hinfo
    exact Member.code?_replaceCode hinfo
  · simp [Method.sameBody]

/-- A method does not carry already what it is optimized to. -/
theorem not_carries (hinfo : m.code? p = some info) (hcode : CodeAttribute.parse info = .ok code)
    (hbody : methodBody? p m code = some body) (hloads : LoadsInUse p body)
    (ho : body.optimize p settings = .ok o) (hchanged : o.changed) (hlater : Later p q)
    (hq : Extends p q) : ¬ m.Carries q o.method := by
  rintro ⟨info', code', body', hinfo', hcode', hdecode, hsame, -, -⟩
  rw [Member.code?_of_later hlater, hinfo] at hinfo'
  cases hinfo'
  rw [hcode] at hcode'
  cases hcode'
  obtain ⟨decoded, slots, hdecoded, rfl⟩ := methodBody?_eq_some hbody
  rw [decode_of_extends hq, hdecoded] at hdecode
  · cases hdecode
    refine Method.not_sameBody_of_changed ho hchanged ?_
    rw [Method.sameBody_iff] at hsame ⊢
    exact ⟨hsame.1.symm, hsame.2.symm⟩
  · intro decoded' hdecoded'
    rw [hdecoded] at hdecoded'
    cases hdecoded'
    exact hloads

/-! ### All methods -/

/-- A method is rewritten as if the pool were still that of the start. -/
theorem Outcome.rewrites {changed : Nat} (h : Outcome settings m p m' q changed)
    (hsize : Pool.size b ≤ 65535) (hp : Later b p) (hm : m.Proper b) (hr : Later q r) :
    changed = (if m' ≠ m then 1 else 0) ∧ (m' ≠ m → m.Rewrites settings b r m') := by
  cases h with
  | kept _ => simp
  | @rewritten _ info code body e hinfo hcode hbody hchanged hencode =>
      obtain ⟨hextends, hsizep⟩ := hp.grows hsize
      have hinfo' : m.code? b = some info := by rwa [Member.code?_of_later hp] at hinfo
      have hbody' : methodBody? b m code = some body := by
        rwa [methodBody?_of_later hp hextends fun h => (hm.decode hinfo' hcode h).1] at hbody
      obtain ⟨hloads, hends⟩ : LoadsInUse p body ∧ body.endsFlow := by
        obtain ⟨decoded, slots, hdecoded, rfl⟩ := methodBody?_eq_some hbody'
        obtain ⟨hloads, hends⟩ := hm.decode hinfo' hcode hdecoded
        exact ⟨hloads.mono hextends.length_le, hends⟩
      have ho := Method.optimize_of_changed hchanged
      have hlater := later_of_encode hencode
      -- The pool behind the method is one of the later ones.
      have hne : m.replaceCode q
          (withBody q code (body.optimizeOrKeep p settings).method e).toBytes ≠ m := by
        intro heq
        have hcarries := carries_replaceCode hsizep hinfo hcode hbody hloads hends ho hencode .refl
        rw [heq] at hcarries
        exact not_carries hinfo hcode hbody hloads ho hchanged hlater (hlater.grows hsizep).1
          hcarries
      refine ⟨by rw [if_pos hne], fun _ => ⟨info, code, body, hinfo', hcode, hbody', ?_, ?_⟩⟩
      · rwa [Method.optimizeOrKeep_of_later hp] at hchanged
      · rw [← Method.optimizeOrKeep_of_later hp]
        exact carries_replaceCode hsizep hinfo hcode hbody hloads hends ho hencode hr

/-- The run over all methods. The pool in the end is later than the one behind
each of them. -/
theorem rewrites_mapM {methods methods' : List Member} {report report' : ClassReport}
    (hsize : Pool.size b ≤ 65535) (hmethods : ∀ m ∈ methods, m.Proper b) (hp : Later b p)
    (h : methods.mapM (rewriteMethod settings) (p, report) = (methods', q, report')) :
    Later p q ∧
      report'.changed = report.changed + (methods.zip methods').countP (fun x => x.2 ≠ x.1) ∧
      List.Forall₂ (fun m m' => m' ≠ m → m.Rewrites settings b q m') methods methods' := by
  induction methods generalizing p report methods' with
  | nil =>
      cases h
      exact ⟨.refl, rfl, .nil⟩
  | cons m methods ih =>
      rw [List.forall_mem_cons] at hmethods
      obtain ⟨rest, middle, rfl, hrest, hcounts⟩ := mapM_cons_eq h
      have houtcome := outcome_outcomeOf settings m p
      obtain ⟨hlater, hcount', hrewrites⟩ := ih hmethods.2 (hp.trans houtcome.later) hrest
      obtain ⟨hchanged, hrewrite⟩ := houtcome.rewrites hsize hp hmethods.1 hlater
      refine ⟨houtcome.later.trans hlater, ?_, .cons hrewrite hrewrites⟩
      rw [List.zip_cons_cons, List.countP_cons, hcount', hcounts.changed, hchanged]
      simp only [decide_eq_true_eq]
      omega

/-! ### The class -/

variable {c : ClassFile} {bytes : Bytes}

/-- Lowering the version leaves methods, pool and counters alone. -/
theorem rewriteMethods_cases {methods : List Member} {pool : ConstantPool} {report : ClassReport}
    (h : c.methods.mapM (rewriteMethod settings) (c.pool, {}) = (methods, pool, report)) :
    (c.rewriteMethods settings).1.methods = methods ∧ (c.rewriteMethods settings).1.pool = pool ∧
      (c.rewriteMethods settings).2.changed = report.changed := by
  unfold rewriteMethods
  simp only [StateT.run, h]
  split
  · exact ⟨rfl, rfl, rfl⟩
  · exact ⟨rfl, rfl, rfl⟩

/-- **What is written is what was optimized.** In a class that was read, let the
loads of all bodies name slots in use and let control not pass over their ends.
Then the methods counted as changed are those that differ after the class was
optimized, and each of them is read back, with the pool that the class has then,
as what its body was optimized to. -/
theorem optimize_carries (hparse : ClassFile.parse bytes = .ok c)
    (hmethods : ∀ m ∈ c.methods, m.Proper c.pool) (settings : Settings) :
    (c.optimize settings).2.changed =
        (c.methods.zip (c.optimize settings).1.methods).countP (fun x => x.2 ≠ x.1) ∧
      List.Forall₂ (fun m m' => m' ≠ m →
          m.Rewrites settings c.pool (c.optimize settings).1.pool m')
        c.methods (c.optimize settings).1.methods := by
  unfold optimize
  split
  · constructor
    · simp [List.zip_eq_zipWith, List.zipWith_self, List.countP_map, Function.comp_def]
    · exact List.forall₂_same.2 fun m _ hne => absurd rfl hne
  · rcases hrun : c.methods.mapM (rewriteMethod settings) (c.pool, {}) with ⟨methods, pool, report⟩
    obtain ⟨hmethods', hpool, hchanged⟩ := rewriteMethods_cases hrun
    obtain ⟨-, hcount, hrewrites⟩ :=
      rewrites_mapM (size_pool_of_parse hparse) hmethods .refl hrun
    rw [hmethods', hpool, hchanged, hcount]
    exact ⟨Nat.zero_add _, hrewrites⟩

/-- A class with two methods that compute numbers, each of them too large for an
instruction. The second one loads a string on the way. -/
def largeNumbers : ClassFile where
  minorVersion := 0
  majorVersion := 48
  pool := ⟨#[.utf8 "Code", .utf8 "()I", .string 1]⟩
  access := 0x21
  thisClass := 0
  superClass := 0
  interfaces := []
  fields := []
  methods :=
    [⟨9, 1, 2, [⟨1, CodeAttribute.toBytes
      ⟨2, 0, [0x11, 0x75, 0x30, 0x11, 0x75, 0x30, 0x60, 0xac], [], []⟩⟩]⟩,
    ⟨9, 1, 2, [⟨1, CodeAttribute.toBytes
      ⟨2, 0, [0x11, 0x75, 0x30, 0x10, 0x03, 0x68, 0x12, 0x03, 0x57, 0xac], [], []⟩⟩]⟩]
  attributes := []

/-- Two methods, of which the second finds the number that the first has put in.
-/
theorem optimize_carries_largeNumbers :
    (largeNumbers.optimize {}).2.changed = 2 ∧
      (largeNumbers.optimize {}).2.changed =
        (largeNumbers.methods.zip (largeNumbers.optimize {}).1.methods).countP
          (fun x => x.2 ≠ x.1) ∧
      List.Forall₂ (fun m m' => m' ≠ m →
          m.Rewrites {} largeNumbers.pool (largeNumbers.optimize {}).1.pool m')
        largeNumbers.methods (largeNumbers.optimize {}).1.methods := by
  have hparse : ClassFile.parse largeNumbers.toBytes = .ok largeNumbers := by decide +kernel
  have hmethods : ∀ m ∈ largeNumbers.methods, m.Proper largeNumbers.pool := by decide +kernel
  exact ⟨by decide +kernel, optimize_carries hparse hmethods {}⟩

end ClassFile

end JvmOptimizer
