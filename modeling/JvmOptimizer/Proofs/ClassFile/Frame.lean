import JvmOptimizer.Proofs.ClassFile.Version

/-!
# What rewriting leaves alone

A class refers to its pool from everywhere, and most of what refers to it is never
looked at: fields, attributes, methods without code. All of it has to mean the same
when the class is written again. So rewriting may touch three things only, besides
the version (`ClassFile.optimize_framed`): numbers go behind the slots of the pool
that are in use, the first `Code` attribute of a method gets other contents, and
these drop what speaks of offsets.

The counters of the report agree with this: no more methods differ than are counted
as changed, and each method with code is counted once.
-/

namespace JvmOptimizer

open Code Pool

/-! ### The pool -/

namespace ConstantPool

variable {p q : ConstantPool}

/-- Behind the slots in use there come numbers, each in its slots. -/
theorem exists_numbers_of_later (h : Later p q) : ∃ numbers : List Value,
    q.constants.toList =
      p.constants.toList ++ numbers.flatMap fun v => (Constant.number v).row := by
  induction h with
  | refl => exact ⟨[], by simp⟩
  | @intern q r v index _ step ih =>
      obtain ⟨numbers, hnumbers⟩ := ih
      obtain ⟨i, -, -, rfl⟩ | ⟨-, -, rfl⟩ := add_cases step
      · exact ⟨numbers, hnumbers⟩
      · refine ⟨numbers ++ [v], ?_⟩
        rw [toList_push, hnumbers]
        simp

/-- Numbers come behind the slots in use, so an index in use means what it meant.
-/
theorem get?_of_le_size (h : Later p q) {index : UInt16} (hindex : index.toNat ≤ p.size) :
    q.get? index = p.get? index := by
  obtain ⟨numbers, hnumbers⟩ := exists_numbers_of_later h
  have hprefix : p.constants.toList <+: q.constants.toList := ⟨_, hnumbers.symm⟩
  rw [get?_eq_slotAt?, get?_eq_slotAt?, slotAt?_of_isPrefix hprefix (by simpa [size] using hindex)]

end ConstantPool

/-! ### Methods -/

namespace Member

variable {p q : ConstantPool} {m : Member} {info : Bytes}

/-- The second method, in the pool `q`, is the first one, in the pool `p`, or has
another body. Of its attributes only the first one named `Code` may have other
contents; the attributes inside it are those that do not speak of offsets. -/
structure Framed (p q : ConstantPool) (m m' : Member) : Prop where
  access : m'.access = m.access
  name : m'.name = m.name
  descriptor : m'.descriptor = m.descriptor
  names : m'.attributes.map (·.name) = m.attributes.map (·.name)
  others : ∀ i, m.codeIndex? p ≠ some i → m'.attributes[i]? = m.attributes[i]?
  nested : m' ≠ m → ∃ info code code', m.code? p = some info ∧
    CodeAttribute.parse info = .ok code ∧ m'.code? q = some code'.toBytes ∧
    (code'.code ≠ [] → CodeAttribute.parse code'.toBytes = .ok code') ∧
    code'.attributes =
      code.attributes.filter fun a => ∀ name ∈ ClassFile.offsetDependent, a.name? p ≠ some name

theorem Framed.refl (p q : ConstantPool) (m : Member) : Framed p q m m :=
  ⟨rfl, rfl, rfl, rfl, fun _ _ => rfl, fun hne => absurd rfl hne⟩

/-- Which attribute is the code depends on names, and a later pool has the same
ones. -/
theorem codeIndex?_of_later (h : Later p q) (m : Member) : m.codeIndex? q = m.codeIndex? p := by
  simp only [codeIndex?, Attribute.name?_of_later h]

/-- The new contents take the place of the old ones under the same name. -/
theorem names_replaceCode (m : Member) (q : ConstantPool) (info : Bytes) :
    (m.replaceCode q info).attributes.map (·.name) = m.attributes.map (·.name) := by
  unfold replaceCode
  split
  · refine List.ext_getElem? fun i => ?_
    simp only [List.getElem?_map, List.getElem?_modify]
    split <;> cases m.attributes[i]? <;> rfl
  · rfl

theorem getElem?_replaceCode {i : Nat} (hi : m.codeIndex? q ≠ some i) (info : Bytes) :
    (m.replaceCode q info).attributes[i]? = m.attributes[i]? := by
  unfold replaceCode
  split
  · rename_i j hj
    have hne : j ≠ i := fun heq => hi (heq ▸ hj)
    simp only [List.getElem?_modify, if_neg hne]
    cases m.attributes[i]? <;> rfl
  · rfl

/-- Everything about a method but its attributes stays. -/
theorem replaceCode_fields (m : Member) (q : ConstantPool) (info : Bytes) :
    (m.replaceCode q info).access = m.access ∧ (m.replaceCode q info).name = m.name ∧
      (m.replaceCode q info).descriptor = m.descriptor := by
  unfold replaceCode
  split <;> exact ⟨rfl, rfl, rfl⟩

end Member

namespace ClassFile

variable {b p q r : ConstantPool} {m : Member} {settings : Settings}

/-- Stripping drops the attributes that speak of offsets, whatever pool they are
named by. -/
theorem attributes_withBody (h : Later b q) (code : CodeAttribute) (body : Method) (e : Encoded) :
    (withBody q code body e).attributes =
      code.attributes.filter fun a => ∀ name ∈ offsetDependent, a.name? b ≠ some name := by
  refine List.filter_congr fun a _ => ?_
  rw [Attribute.name?_of_later h]
  cases a.name? b with
  | none => simp
  | some name =>
      by_cases hname : name ∈ offsetDependent
      · rw [decide_eq_false fun hall => hall name hname rfl]
        simpa using hname
      · have hnot : ∀ x ∈ offsetDependent, some name ≠ some x := by
          intro x hx heq
          cases heq
          exact hname hx
        rw [decide_eq_true hnot]
        simpa using hname

/-- Rewriting a method touches its body only, also when the pool has grown before
and grows after it. -/
theorem framed_outcomeOf (hp : Later b p) (hr : Later (outcomeOf settings m p).2 r) :
    Member.Framed b r m ((outcomeOf settings m p).1.applied (outcomeOf settings m p).2 m) := by
  rcases houtcome : outcomeOf settings m p with ⟨outcome, q⟩
  rw [houtcome] at hr
  obtain ⟨hnone, -⟩ | ⟨info, code, body, e, hinfo, hcode, hbody, hchanged, hencode, hsome⟩ :=
    outcomeOf_cases houtcome
  · rw [MethodOutcome.applied_of_none hnone]
    exact .refl b r m
  · have hq : Later b q := hp.trans (later_of_encode hencode)
    obtain ⟨haccess, hname, hdescriptor⟩ := m.replaceCode_fields q
      (withBody q code (body.optimizeOrKeep p settings).method e).toBytes
    rw [MethodOutcome.applied_of_some hsome]
    refine ⟨haccess, hname, hdescriptor, m.names_replaceCode q _, fun i hi => ?_, fun _ => ?_⟩
    · rw [← Member.codeIndex?_of_later hq] at hi
      exact Member.getElem?_replaceCode hi _
    · rw [Member.code?_of_later hp] at hinfo
      have ho := Method.optimize_of_changed hchanged
      exact ⟨info, code, _, hinfo, hcode, (isStripped_outcomeOf houtcome hsome hr).1,
        parse_withBody hcode hbody ho hencode, attributes_withBody hq code _ e⟩

/-- A method is counted as changed or as skipped or as neither, and only if it
has code. -/
theorem counted_outcomeOf (settings : Settings) (m : Member) (p : ConstantPool) :
    (if (outcomeOf settings m p).1.info?.isSome then 1 else 0) +
      (if (outcomeOf settings m p).1.isFailed then 1 else 0) ≤
        (if (m.code? p).isSome then 1 else 0) := by
  cases hinfo : m.code? p with
  | none =>
      have houtcome : outcomeOf settings m p = (.unchanged, p) := by simp only [outcomeOf, hinfo]
      rw [houtcome]
      exact Nat.le_refl _
  | some info =>
      cases (outcomeOf settings m p).1 with
      | failed => exact Nat.le_refl 1
      | unchanged => exact Nat.zero_le 1
      | rewritten info' => exact Nat.le_refl 1

/-- A method that differs was rewritten. -/
theorem isSome_of_applied_ne (h : (outcomeOf settings m p).1.applied q m ≠ m) :
    (outcomeOf settings m p).1.info?.isSome := by
  cases hinfo : (outcomeOf settings m p).1.info? with
  | none => exact absurd (MethodOutcome.applied_of_none hinfo) h
  | some info => rfl

/-! ### All methods -/

section Run

variable {methods methods' : List Member} {report report' : ClassReport}
  (h : methods.mapM (rewriteMethod settings) (p, report) = (methods', q, report'))
include h

/-- One method after the other, each in the pool that the ones before have left.
-/
theorem framed_run (hp : Later b p) : List.Forall₂ (Member.Framed b q) methods methods' := by
  induction methods generalizing p report methods' with
  | nil =>
      cases h
      exact .nil
  | cons m methods ih =>
      obtain ⟨rest, middle, rfl, hrest, -⟩ := mapM_cons_eq h
      refine .cons (framed_outcomeOf hp (later_run hrest).1) (ih hrest ?_)
      exact hp.trans (later_outcomeOf settings m p)

/-- Each method with code is counted, and no more methods differ than are counted
as changed. -/
theorem counters_run :
    report'.methods = report.methods + methods.countP (fun m => (m.code? p).isSome) ∧
      report'.changed + report'.skipped + report.methods ≤
        report.changed + report.skipped + report'.methods ∧
      report.changed + (methods.zip methods').countP (fun x => x.2 ≠ x.1) ≤ report'.changed := by
  induction methods generalizing p report methods' with
  | nil =>
      cases h
      exact ⟨rfl, Nat.le_refl _, Nat.le_refl _⟩
  | cons m methods ih =>
      obtain ⟨rest, middle, rfl, hrest, hcounts⟩ := mapM_cons_eq h
      obtain ⟨hmethods, hsum, hdiffer⟩ := ih hrest
      simp only [Member.code?_of_later (later_outcomeOf settings m p)] at hmethods
      have hone := counted_outcomeOf settings m p
      have hmethods' := hcounts.methods
      have hchanged := hcounts.changed
      have hskipped := hcounts.skipped
      -- A method that was rewritten may happen to have the contents it had, so the methods
      -- that differ are at most those counted as changed.
      have hstays : (if (outcomeOf settings m p).1.applied (outcomeOf settings m p).2 m ≠ m
          then 1 else 0) ≤ if (outcomeOf settings m p).1.info?.isSome then 1 else 0 := by
        split
        · rename_i hne
          rw [if_pos (isSome_of_applied_ne hne)]
        · exact Nat.zero_le _
      rw [List.zip_cons_cons, List.countP_cons, List.countP_cons]
      simp only [decide_eq_true_eq]
      refine ⟨?_, ?_, ?_⟩ <;> omega

end Run

/-! ### The class -/

/-- How a class `c` is rewritten to `c'`, besides its version. -/
structure Framed (c c' : ClassFile) (report : ClassReport) : Prop where
  access : c'.access = c.access
  thisClass : c'.thisClass = c.thisClass
  superClass : c'.superClass = c.superClass
  interfaces : c'.interfaces = c.interfaces
  fields : c'.fields = c.fields
  attributes : c'.attributes = c.attributes
  /-- Numbers follow the slots in use, each in its slots. -/
  numbers : ∃ numbers : List Value,
    c'.pool.constants.toList =
      c.pool.constants.toList ++ numbers.flatMap fun v => (Constant.number v).row
  /-- An index in use keeps its meaning. -/
  meaning : ∀ index : UInt16, index.toNat ≤ c.pool.size → c'.pool.get? index = c.pool.get? index
  /-- An index that was not in use does not become a name. -/
  texts : ∀ index, c'.pool.utf8? index = c.pool.utf8? index
  methods : List.Forall₂ (Member.Framed c.pool c'.pool) c.methods c'.methods
  /-- Methods that differ are counted as changed. -/
  changed : (c.methods.zip c'.methods).countP (fun x => x.2 ≠ x.1) ≤ report.changed
  /-- Methods with code are counted once each. -/
  counted : report.passedThrough = false → report.changed + report.skipped ≤ report.methods ∧
    report.methods = c.methods.countP fun m => (m.code? c.pool).isSome

/-- **Rewriting leaves alone what it is not about**, for any class and settings. -/
theorem optimize_framed (settings : Settings) (c : ClassFile) :
    Framed c (c.optimize settings).1 (c.optimize settings).2 := by
  unfold optimize
  split
  · exact {
      access := rfl, thisClass := rfl, superClass := rfl, interfaces := rfl, fields := rfl
      attributes := rfl
      numbers := ⟨[], (List.append_nil _).symm⟩
      meaning := fun _ _ => rfl
      texts := fun _ => rfl
      methods := List.forall₂_same.2 fun m _ => .refl c.pool c.pool m
      changed := by
        rw [List.zip_eq_zipWith, List.zipWith_self, List.countP_map]
        simp [Function.comp_def]
      counted := fun hpassed => absurd hpassed (by simp) }
  · rcases hrun : c.methods.mapM (rewriteMethod settings) (c.pool, {}) with ⟨methods, pool, report⟩
    have hlater := (later_run hrun).1
    obtain ⟨hmethods, hsum, hdiffer⟩ := counters_run hrun
    -- Before the version is looked at: numbers were added and bodies replaced. Lowering
    -- the version changes no field that is compared here.
    have hframed : Framed c { c with methods, pool } report := {
      access := rfl, thisClass := rfl, superClass := rfl, interfaces := rfl, fields := rfl
      attributes := rfl
      numbers := ConstantPool.exists_numbers_of_later hlater
      meaning := fun _ hindex => ConstantPool.get?_of_le_size hlater hindex
      texts := congrFun (ConstantPool.utf8?_of_later hlater)
      methods := framed_run hrun .refl
      changed := by simpa using hdiffer
      counted := fun _ => ⟨by simpa using hsum, by simpa using hmethods⟩ }
    unfold rewriteMethods
    simp only [StateT.run, hrun]
    split
    · exact { hframed with }
    · exact hframed

end ClassFile

end JvmOptimizer
