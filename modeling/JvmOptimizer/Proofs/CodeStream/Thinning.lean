import JvmOptimizer.Proofs.CodeStream.Edit

/-!
# Streams that thin out a method

Whatever a pass deletes, the stream it leaves is the method with instructions
taken out: a node that is still live leads where its instruction led, passing
over the dead, and an exception thrown there is handled by the same handler.
Only instructions that name no targets are ever exchanged.

This is the invariant of all edits. The deletions keep it as long as they
succeed, whatever they delete; why a pass may delete what it deletes is another
matter.
-/

namespace JvmOptimizer.CodeStream

variable {s s' : CodeStream} {m : Method} {n t id : Nat}

/-- The range of a handler of the method, among the live nodes. -/
def range (s : CodeStream) (h : Handler) : HandlerRange :=
  ⟨s.ahead h.start, s.firstFrom h.stop, s.ahead h.entry, h.catchType⟩

/-- The range protects a node. -/
def Covers (r : HandlerRange) (n : Nat) : Prop := r.start ≤ n ∧ r.stop.all (n < ·)

/-- The handler can stay: its range starts somewhere, and so does its code. -/
def Holds (s : CodeStream) (h : Handler) : Prop :=
  s.ahead h.start < s.nodes.size ∧ s.ahead h.entry < s.nodes.size

/-- The handler can go: it protects no live node. -/
def Idle (s : CodeStream) (h : Handler) : Prop :=
  ∀ n, h.start ≤ n → n < h.stop → ¬ s.isLive n

/-- The stream is the method with instructions taken out, and others that name
no targets exchanged. -/
structure Thins (s : CodeStream) (m : Method) : Prop where
  size : s.nodes.size = m.code.length
  instruction : ∀ {n insn}, s.isLive n → m.code[n]? = some insn →
    s.instruction? n = some (insn.mapTargets s.ahead) ∨
      insn.targets = [] ∧ ∃ other, s.instruction? n = some other ∧ other.targets = []
  /-- No target leads over the end. -/
  target : ∀ {n insn t}, s.isLive n → m.code[n]? = some insn → t ∈ insn.targets →
    s.ahead t < s.nodes.size
  handlers : ∃ keep : Handler → Bool, s.handlers = (m.handlers.filter keep).map s.range ∧
    ∀ h ∈ m.handlers, if keep h then s.Holds h else s.Idle h

/-! ### Ranges -/

theorem lt_size_of_ahead_lt (h : s.ahead t < s.nodes.size) : t < s.nodes.size := by
  by_contra hle
  rw [ahead_eq_size_of_le (by omega)] at h
  omega

/-- On live nodes the range protects what the handler protects. -/
theorem range_covers {h : Handler} (hs : h.start ≤ s.nodes.size) (hn : s.isLive n) :
    ((s.range h).start ≤ n && (s.range h).stop.all (n < ·)) =
      (decide (h.start ≤ n) && decide (n < h.stop)) := by
  have hstart : (s.range h).start ≤ n ↔ h.start ≤ n := ahead_le_iff hs hn
  have hstop : (s.range h).stop.all (n < ·) = decide (n < h.stop) := by
    change (s.firstFrom h.stop).all (n < ·) = _
    cases hf : s.firstFrom h.stop with
    | none =>
        have : n < h.stop := by
          by_contra hle
          exact firstFrom_eq_none_iff.1 hf n (by omega) hn
        simp [this]
    | some k =>
        obtain ⟨hk, hlive, hdead⟩ := firstFrom_eq_some_iff.1 hf
        have : n < k ↔ n < h.stop := by
          constructor
          · intro hnk
            by_contra hle
            exact hdead n (by omega) hnk hn
          · omega
        simp [this]
  simp only [hstart, hstop]

/-- For a live node it makes no difference whether the bounds of a handler are
those of the body or the live nodes that stand for them. -/
theorem covers_range_iff {h : Handler} (hs : h.start ≤ s.nodes.size) (hn : s.isLive n) :
    Covers (s.range h) n ↔ h.start ≤ n ∧ n < h.stop := by
  simpa [Covers] using congrArg (· = true) (range_covers hs hn)

/-- A range is dropped only where its two bounds fell together. -/
theorem isProper_iff {r : HandlerRange} : r.isProper ↔ r.stop ≠ some r.start := by
  simp [HandlerRange.isProper]

/-- A range that ends where it starts protects nothing. -/
theorem idle_of_not_isProper {h : Handler} (hproper : ¬ (s.range h).isProper) : s.Idle h := by
  have heq : s.firstFrom h.stop = some (s.ahead h.start) := by
    by_contra hne
    exact hproper (isProper_iff.2 hne)
  obtain ⟨hle, -, -⟩ := firstFrom_eq_some_iff.1 heq
  intro n hstart hstop hn
  have := ahead_le_of_isLive hstart hn
  omega

/-! ### Instructions -/

namespace Thins

/-- An instruction with targets is never exchanged. -/
theorem instruction_of_targets {insn : Instruction Nat} (h : s.Thins m) (hn : s.isLive n)
    (hi : m.code[n]? = some insn) (ht : insn.targets ≠ []) :
    s.instruction? n = some (insn.mapTargets s.ahead) := by
  rcases h.instruction hn hi with heq | ⟨hnil, -⟩
  · exact heq
  · exact absurd hnil ht

/-- A live node leads where its instruction led. -/
theorem targets {insn : Instruction Nat} (h : s.Thins m) (hn : s.isLive n)
    (hi : m.code[n]? = some insn) : s.targets n = insn.targets.map s.ahead := by
  rcases h.instruction hn hi with heq | ⟨hnil, other, heq, hnil'⟩
  · rw [targets_of_instruction? heq, Instruction.targets_mapTargets]
  · rw [targets_of_instruction? heq, hnil', hnil]
    rfl

theorem exists_code (h : s.Thins m) (hn : s.isLive n) : ∃ insn, m.code[n]? = some insn := by
  have hlt := lt_size_of_isLive hn
  rw [h.size] at hlt
  exact ⟨m.code[n], by simp [hlt]⟩

/-- A handler that protects a live node has its range in the stream. -/
theorem holds_of_covers (h : s.Thins m) {r : Handler} (hr : r ∈ m.handlers) (hn : s.isLive n)
    (hle : r.start ≤ n) (hlt : n < r.stop) : s.range r ∈ s.handlers ∧ s.Holds r := by
  obtain ⟨keep, heq, hkeep⟩ := h.handlers
  have hk := hkeep r hr
  split at hk
  · rename_i hkr
    exact ⟨heq ▸ List.mem_map.2 ⟨r, List.mem_filter.2 ⟨hr, hkr⟩, rfl⟩, hk⟩
  · exact absurd hn (hk n hle hlt)

/-- Every range of the stream comes from a handler of the body. -/
theorem exists_of_mem_handlers (h : s.Thins m) {r : HandlerRange} (hr : r ∈ s.handlers) :
    ∃ h ∈ m.handlers, s.Holds h ∧ s.range h = r := by
  obtain ⟨keep, heq, hkeep⟩ := h.handlers
  rw [heq] at hr
  obtain ⟨h, hmem, rfl⟩ := List.mem_map.1 hr
  obtain ⟨hmem, hk⟩ := List.mem_filter.1 hmem
  have hholds := hkeep h hmem
  rw [if_pos hk] at hholds
  exact ⟨h, hmem, hholds, rfl⟩

/-- A range that protects a live node is that of a handler which protects it. -/
theorem exists_of_covers (h : s.Thins m) {r : HandlerRange} (hr : r ∈ s.handlers)
    (hn : s.isLive n) (hc : Covers r n) :
    ∃ h ∈ m.handlers, h.start ≤ n ∧ n < h.stop ∧ s.range h = r := by
  obtain ⟨h, hmem, hholds, rfl⟩ := h.exists_of_mem_handlers hr
  obtain ⟨hle, hlt⟩ := (covers_range_iff (lt_size_of_ahead_lt hholds.1).le hn).1 hc
  exact ⟨h, hmem, hle, hlt, rfl⟩

/-! ### Exchanging an instruction -/

/-- A stream with the same live nodes and handlers is thinned out of the same
body. An instruction without targets may have been exchanged for another. -/
theorem congr (h : s.Thins m) (hsize : s'.nodes.size = s.nodes.size)
    (hlive : ∀ n, s'.isLive n = s.isLive n)
    (hinsn : ∀ n, s.isLive n → s'.instruction? n = s.instruction? n ∨
      s.targets n = [] ∧ ∃ other, s'.instruction? n = some other ∧ other.targets = [])
    (hhandlers : s'.handlers = s.handlers) : s'.Thins m := by
  have hahead : s'.ahead = s.ahead := funext fun t => ahead_congr hsize hlive
  have hfirst : s'.firstFrom = s.firstFrom := funext fun t => by
    rw [firstFrom_eq_ahead, firstFrom_eq_ahead, hahead, hsize]
  -- The conditions one by one: they speak of live nodes and of where a look ahead ends,
  -- and both are the same.
  refine ⟨hsize.trans h.size, fun {n insn} hn hi => ?_, fun {n insn t} hn hi ht => ?_, ?_⟩
  · rw [hlive] at hn
    rw [hahead]
    rcases hinsn n hn with heq | ⟨ht, hother⟩
    · rw [heq]
      exact h.instruction hn hi
    · rw [h.targets hn hi, List.map_eq_nil_iff] at ht
      exact .inr ⟨ht, hother⟩
  · rw [hlive] at hn
    rw [hahead, hsize]
    exact h.target hn hi ht
  · obtain ⟨keep, heq, hkeep⟩ := h.handlers
    refine ⟨keep, ?_, fun r hr => ?_⟩
    · have : s'.range = s.range := funext fun r => by simp only [range, hahead, hfirst]
      rw [hhandlers, heq, this]
    · have := hkeep r hr
      split
      · rename_i hk
        rw [if_pos hk] at this
        simpa only [Holds, hahead, hsize] using this
      · rename_i hk
        rw [if_neg hk] at this
        simpa only [Idle, hlive] using this

theorem renumber (h : s.Thins m) : s.renumber.Thins m :=
  h.congr size_renumber (fun _ => isLive_renumber) (fun _ _ => .inl instruction?_renumber) rfl

/-- An exchange of instructions without targets. -/
theorem replace {insn : Instruction Nat} (h : s.Thins m) (hid : id < s.nodes.size)
    (hs : s.targets id = []) (hi : insn.targets = []) : (s.replace id insn).Thins m := by
  refine h.congr size_replace (fun _ => isLive_replace) (fun n _ => ?_) rfl
  by_cases hn : n = id
  · subst hn
    exact .inr ⟨hs, insn, instruction?_replace_self hid, hi⟩
  · exact .inl (instruction?_replace_of_ne hn)

/-! ### Deleting -/

/-- What a deletion does to the ranges, it does to the handlers one by one. -/
theorem handlers_filterMap {f : HandlerRange → Option HandlerRange} (h : s.Thins m)
    (hf : ∀ r ∈ m.handlers, s.range r ∈ s.handlers → s.Holds r →
      f (s.range r) = some (s'.range r) ∧ s'.Holds r ∨ f (s.range r) = none ∧ s'.Idle r)
    (hidle : ∀ n, s'.isLive n → s.isLive n) (heq : s'.handlers = s.handlers.filterMap f) :
    ∃ keep : Handler → Bool, s'.handlers = (m.handlers.filter keep).map s'.range ∧
      ∀ h ∈ m.handlers, if keep h then s'.Holds h else s'.Idle h := by
  obtain ⟨keep, hlist, hkeep⟩ := h.handlers
  have hcase : ∀ r ∈ m.handlers, keep r →
      f (s.range r) = some (s'.range r) ∧ s'.Holds r ∨ f (s.range r) = none ∧ s'.Idle r := by
    intro r hr hk
    have hholds := hkeep r hr
    rw [if_pos hk] at hholds
    exact hf r hr (hlist ▸ List.mem_map.2 ⟨r, List.mem_filter.2 ⟨hr, hk⟩, rfl⟩) hholds
  -- Of the handlers that were kept, those stay for which `f` still has a range. The list
  -- is compared handler by handler, in the order of the body.
  refine ⟨fun r => keep r && (f (s.range r)).isSome, ?_, fun r hr => ?_⟩
  · rw [heq, hlist]
    clear heq hlist hkeep hf h
    revert hcase
    generalize m.handlers = handlers
    intro hcase
    induction handlers with
    | nil => rfl
    | cons r l ih =>
        have hl := ih fun r hr => hcase r (List.mem_cons_of_mem _ hr)
        cases hk : keep r with
        | false => simpa [List.filter_cons, hk] using hl
        | true =>
            rcases hcase r List.mem_cons_self hk with ⟨hr, -⟩ | ⟨hr, -⟩ <;>
              simpa [List.filter_cons, hk, hr] using hl
  · cases hk : keep r with
    | false =>
        have hi := hkeep r hr
        rw [if_neg (by simp [hk])] at hi
        rw [if_neg (by simp [hk])]
        exact fun n h₁ h₂ hn => hi n h₁ h₂ (hidle n hn)
    | true =>
        rcases hcase r hr hk with ⟨hr, hholds⟩ | ⟨hr, hi⟩
        · rw [if_pos (by simp [hk, hr])]
          exact hholds
        · rw [if_neg (by simp [hr])]
          exact hi

end Thins

section DeleteOne

variable (hd : s.deleteOne id = .ok s') (hid : s.isLive id)

include hd hid

theorem isLive_of_deleteOne (hn : s'.isLive n) : s.isLive n ∧ n ≠ id := by
  rw [isLive_deleteOne hd hid] at hn
  simpa using hn

/-- What something still names is not lost with a node. -/
theorem ahead_lt_of_deleteOne (ht : s.ahead t < s.nodes.size)
    (hneed : (∃ k, s.isLive k ∧ k ≠ id ∧ s.ahead t ∈ s.targets k) ∨
      ∃ r ∈ s.handlers, r.entry = s.ahead t) : s'.ahead t < s'.nodes.size := by
  rw [ahead_deleteOne hd hid, size_deleteOne hd hid]
  by_cases heq : s.ahead t = id
  · rw [heq, moved_self]
    rcases (deleteOne_eq_ok_iff hid).1 hd with ⟨hlt, -⟩ | ⟨-, hnot, -⟩
    · exact hlt
    · rw [isTargeted_iff, isHandlerEntry_iff, ← heq] at hnot
      rcases hneed with ⟨k, hk, hne, hmem⟩ | hentry
      · exact absurd (.inr ⟨k, hk, heq ▸ hne, hmem⟩) hnot
      · exact absurd (.inl hentry) hnot
  · rw [moved_of_ne heq]
    exact ht

/-- A search that found the node that went finds the next one. -/
theorem firstFrom_deleteOne :
    s'.firstFrom t = (s.firstFrom t).bind fun k =>
      if k = id then s.firstFrom (id + 1) else some k := by
  have hlt := lt_size_of_isLive hid
  rw [firstFrom_eq_ahead, firstFrom_eq_ahead (s := s), firstFrom_eq_ahead (s := s),
    ahead_deleteOne hd hid, size_deleteOne hd hid]
  have hle := ahead_le_size s t
  by_cases heq : s.ahead t = id
  · simp [heq, hlt]
  · by_cases hat : s.ahead t < s.nodes.size
    · simp [moved_of_ne heq, hat, heq]
    · simp [moved_of_ne heq, hat]

/-- Whatever named the node names the one behind it. -/
theorem range_deleteOne (hnext : s.ahead (id + 1) < s.nodes.size) (r : Handler) :
    s'.range r = (s.range r).redirect id (s.ahead (id + 1)) := by
  have hstop : s'.firstFrom r.stop =
      (s.firstFrom r.stop).map (moved id (s.ahead (id + 1))) := by
    rw [firstFrom_deleteOne hd hid, firstFrom_eq_ahead (t := id + 1), if_pos hnext]
    cases s.firstFrom r.stop with
    | none => rfl
    | some k => by_cases hk : k = id <;> simp [hk, moved]
  simp only [range, HandlerRange.redirect, ahead_deleteOne hd hid, hstop]
  rfl

/-- A range up to the last node runs to the end when that goes. -/
theorem range_deleteOne_last (hlast : s.ahead (id + 1) = s.nodes.size) {r : Handler}
    (hstart : s.ahead r.start ≠ id) (hentry : s.ahead r.entry ≠ id) :
    s'.range r =
      if (s.range r).stop = some id then { s.range r with stop := none } else s.range r := by
  have hnone : s.firstFrom (id + 1) = none := by
    rw [firstFrom_eq_ahead, if_neg (by omega)]
  have hrange : s'.range r = { s.range r with
      stop := (s.firstFrom r.stop).bind fun k => if k = id then none else some k } := by
    simp only [range, ahead_deleteOne hd hid, moved_of_ne hstart, moved_of_ne hentry,
      firstFrom_deleteOne hd hid, hnone]
  rw [hrange]
  by_cases hstop : (s.range r).stop = some id
  · have hf : s.firstFrom r.stop = some id := hstop
    rw [if_pos hstop, hf]
    simp
  · have hf : s.firstFrom r.stop ≠ some id := hstop
    rw [if_neg hstop]
    change _ = HandlerRange.mk _ (s.firstFrom r.stop) _ _
    cases hk : s.firstFrom r.stop with
    | none => rfl
    | some k =>
        have hne : k ≠ id := fun heq => hf (heq ▸ hk)
        simp [hne, range]

namespace Thins

variable (h : s.Thins m)

include h

/-- Handlers after a node went that had another one behind it. -/
theorem handlers_deleteOne (hnext : s.ahead (id + 1) < s.nodes.size) :
    ∃ keep : Handler → Bool, s'.handlers = (m.handlers.filter keep).map s'.range ∧
      ∀ h ∈ m.handlers, if keep h then s'.Holds h else s'.Idle h := by
  refine h.handlers_filterMap
    (f := fun r => Option.guard HandlerRange.isProper (r.redirect id (s.ahead (id + 1))))
    (fun r hr hmem hholds => ?_) (fun n hn => (isLive_of_deleteOne hd hid hn).1) ?_
  · rw [← range_deleteOne hd hid hnext]
    by_cases hproper : (s'.range r).isProper
    · have hentry := ahead_lt_of_deleteOne hd hid hholds.2 (.inr ⟨s.range r, hmem, rfl⟩)
      refine .inl ⟨by simp [Option.guard, hproper], ?_, hentry⟩
      rw [ahead_deleteOne hd hid, size_deleteOne hd hid]
      unfold moved
      split
      · exact hnext
      · exact hholds.1
    · exact .inr ⟨by simp [Option.guard, hproper], idle_of_not_isProper hproper⟩
  · rcases (deleteOne_eq_ok_iff hid).1 hd with ⟨-, heq⟩ | ⟨hlast, -⟩
    · rw [heq, handlers_unlink]
      simp only [redirect, ← List.filterMap_eq_filter, List.filterMap_map]
      rfl
    · omega

/-- Handlers after the last node went. Where they used to end there is nothing
now. -/
theorem handlers_deleteOne_last (hlast : s.ahead (id + 1) = s.nodes.size) :
    ∃ keep : Handler → Bool, s'.handlers = (m.handlers.filter keep).map s'.range ∧
      ∀ h ∈ m.handlers, if keep h then s'.Holds h else s'.Idle h := by
  rcases (deleteOne_eq_ok_iff hid).1 hd with ⟨hnext, -⟩ | ⟨-, hnot, heq⟩
  · omega
  · refine h.handlers_filterMap
      (f := fun r => if r.start ≠ id then
        some (if r.stop = some id then { r with stop := none } else r) else none)
      (fun r hr hmem hholds => ?_) (fun n hn => (isLive_of_deleteOne hd hid hn).1) ?_
    · by_cases hstart : s.ahead r.start = id
      · refine .inr ⟨if_neg (not_not_intro hstart), fun n h₁ h₂ hn => ?_⟩
        -- A live node of the range would lie behind the last one.
        obtain ⟨hlive, hne⟩ := isLive_of_deleteOne hd hid hn
        have hle := ahead_le_of_isLive h₁ hlive
        exact not_isLive_of_lt_ahead (by omega : id + 1 ≤ n)
          (hlast ▸ lt_size_of_isLive hlive) hlive
      · have hne : s.ahead r.entry ≠ id := by
          intro hentry
          exact hnot (isTargeted_iff.2 (.inl (isHandlerEntry_iff.2 ⟨s.range r, hmem, hentry⟩)))
        refine .inl ⟨?_, ?_, ahead_lt_of_deleteOne hd hid hholds.2 (.inr ⟨_, hmem, rfl⟩)⟩
        · rw [range_deleteOne_last hd hid hlast hstart hne]
          exact if_pos hstart
        · rw [ahead_deleteOne hd hid, moved_of_ne hstart, size_deleteOne hd hid]
          exact hholds.1
    · rw [heq, handlers_unlink]
      simp only [handlersWithoutLast, ← List.filterMap_eq_filter, List.map_filterMap]
      congr 1
      funext r
      by_cases hr : r.start = id <;> simp [hr, Option.guard]

/-- **Deleting a node** leaves the method thinned out. -/
theorem deleteOne : s'.Thins m := by
  have hahead : s'.ahead = moved id (s.ahead (id + 1)) ∘ s.ahead :=
    funext fun t => ahead_deleteOne hd hid
  refine ⟨(size_deleteOne hd hid).trans h.size, fun {n insn} hn hi => ?_,
    fun {n insn t} hn hi ht => ?_, ?_⟩
  · obtain ⟨hn, hne⟩ := isLive_of_deleteOne hd hid hn
    rw [instruction?_deleteOne hd hid hn hne]
    rcases h.instruction hn hi with heq | ⟨hnil, other, heq, hnil'⟩
    · left
      rw [heq, Option.map_some, Instruction.mapTargets_mapTargets, hahead]
    · right
      rw [heq, Option.map_some, Instruction.mapTargets_of_targets_eq_nil hnil']
      exact ⟨hnil, other, rfl, hnil'⟩
  · obtain ⟨hn, hne⟩ := isLive_of_deleteOne hd hid hn
    refine ahead_lt_of_deleteOne hd hid (h.target hn hi ht) (.inl ⟨n, hn, hne, ?_⟩)
    rw [h.targets hn hi]
    exact List.mem_map_of_mem ht
  · rcases Nat.lt_or_ge (s.ahead (id + 1)) s.nodes.size with hnext | hlast
    · exact handlers_deleteOne hd hid h hnext
    · exact handlers_deleteOne_last hd hid h (Nat.le_antisymm (s.ahead_le_size _) hlast)

end Thins

end DeleteOne

/-! ### Deleting a run -/

section DeleteRange

variable {first last count : Nat} (hd : s.deleteRange first last = .ok (count, s'))

include hd

theorem handlers_deleteRange : s'.handlers = s.handlers.filterMap fun r =>
    let stop := if r.stop.any fun k => s.isLive k ∧ first ≤ k ∧ k ≤ last then
      s.next? last else r.stop
    (if s.isLive r.start ∧ first ≤ r.start ∧ r.start ≤ last then
      (s.next? last).map fun start => { r with start, stop }
    else
      some { r with stop }).filter HandlerRange.isProper := by
  obtain ⟨members, hr, -, -, rfl⟩ := deleteRange_eq_ok_iff.1 hd
  obtain ⟨-, -, -, rfl⟩ := run?_eq_some_iff.1 hr
  rw [handlers_foldl_unlink]
  simp only [handlersWithout, List.filter_filterMap]
  congr 1
  funext r
  simp only [List.mem_filter, mem_ids, decide_eq_true_eq]

theorem firstFrom_deleteRange : s'.firstFrom t =
    if (s.firstFrom t).any fun k => s.isLive k ∧ first ≤ k ∧ k ≤ last then
      s.next? last else s.firstFrom t := by
  obtain ⟨-, hlast, hle⟩ := isLive_of_deleteRange hd
  have hlt := lt_size_of_isLive hlast
  rw [next?_eq hlast, firstFrom_eq_ahead, firstFrom_eq_ahead (s := s),
    firstFrom_eq_ahead (s := s), ahead_deleteRange hd, size_deleteRange hd]
  by_cases hat : s.ahead t < s.nodes.size
  · by_cases hin : first ≤ s.ahead t ∧ s.ahead t ≤ last
    · simp [hat, hin, isLive_ahead hat]
    · simp [hat, hin]
  · have : ¬ (first ≤ s.ahead t ∧ s.ahead t ≤ last) := by omega
    simp [hat, this]

/-- What something outside still names is left alone. -/
theorem ahead_deleteRange_of_isLive (hl : s'.isLive (s.ahead t)) : s'.ahead t = s.ahead t := by
  rw [ahead_deleteRange hd, if_neg ((isLive_deleteRange hd).1 hl).2]

/-- A range that starts in the run starts behind it afterwards, if anything is
there. -/
theorem range_deleteRange {r : Handler} (h : s.Holds r) :
    (if first ≤ (s.range r).start ∧ (s.range r).start ≤ last then
      (s.next? last).map fun start =>
        ⟨start, (s'.range r).stop, (s'.range r).entry, (s'.range r).catchType⟩
    else
      some ⟨(s.range r).start, (s'.range r).stop, (s'.range r).entry, (s'.range r).catchType⟩) =
    if s'.ahead r.start < s'.nodes.size then some (s'.range r) else none := by
  obtain ⟨-, hlast, -⟩ := isLive_of_deleteRange hd
  have hstart : s'.ahead r.start =
      if first ≤ (s.range r).start ∧ (s.range r).start ≤ last then s.ahead (last + 1)
      else (s.range r).start := ahead_deleteRange hd
  rw [next?_eq hlast, firstFrom_eq_ahead, size_deleteRange hd]
  by_cases hin : first ≤ (s.range r).start ∧ (s.range r).start ≤ last
  · rw [if_pos hin] at hstart
    rw [if_pos hin, hstart]
    split
    · simp [range, hstart]
    · rfl
  · rw [if_neg hin] at hstart
    rw [if_neg hin, if_pos (hstart ▸ h.1), ← hstart]
    rfl

namespace Thins

variable (h : s.Thins m)

include h

/-- Handlers after a run went. One that lay in it altogether has nothing to
protect, and its range is dropped. -/
theorem handlers_deleteRange :
    ∃ keep : Handler → Bool, s'.handlers = (m.handlers.filter keep).map s'.range ∧
      ∀ h ∈ m.handlers, if keep h then s'.Holds h else s'.Idle h := by
  refine h.handlers_filterMap (fun r hr hmem hholds => ?_)
    (fun n hn => ((isLive_deleteRange hd).1 hn).1) (CodeStream.handlers_deleteRange hd)
  have hentry : s'.isLive (s.ahead r.entry) :=
    entry_deleteRange hd hmem (isLive_ahead hholds.2)
  have hlive : s.isLive (s.range r).start := isLive_ahead hholds.1
  have hstop : (if (s.range r).stop.any fun k => s.isLive k ∧ first ≤ k ∧ k ≤ last then
      s.next? last else (s.range r).stop) = (s'.range r).stop := (firstFrom_deleteRange hd).symm
  have hkept : (s.range r).entry = (s'.range r).entry :=
    (ahead_deleteRange_of_isLive hd hentry).symm
  simp only [hstop, hlive, true_and, hkept]
  rw [show (s.range r).catchType = (s'.range r).catchType from rfl, range_deleteRange hd hholds]
  -- The range still holds a live node, unless it was in the run or its bounds have fallen
  -- together.
  split
  · rename_i hlt
    rw [Option.filter_some]
    split
    · refine .inl ⟨rfl, hlt, ?_⟩
      rw [ahead_deleteRange_of_isLive hd hentry, size_deleteRange hd]
      exact hholds.2
    · rename_i hproper
      exact .inr ⟨rfl, idle_of_not_isProper hproper⟩
  · rename_i hlt
    refine .inr ⟨rfl, fun n hn₁ _ hn => ?_⟩
    have := ahead_le_of_isLive hn₁ hn
    have := lt_size_of_isLive hn
    omega

/-- **Deleting a run** leaves the method thinned out. -/
theorem deleteRange : s'.Thins m := by
  have hsize := size_deleteRange hd
  have htarget : ∀ {n insn t}, s'.isLive n → m.code[n]? = some insn → t ∈ insn.targets →
      s'.isLive (s.ahead t) := by
    intro n insn t hn hi ht
    have hlive := ((isLive_deleteRange hd).1 hn).1
    refine targets_deleteRange hd hn ?_ (isLive_ahead (h.target hlive hi ht))
    rw [h.targets hlive hi]
    exact List.mem_map_of_mem ht
  refine ⟨hsize.trans h.size, fun {n insn} hn hi => ?_, fun {n insn t} hn hi ht => ?_,
    handlers_deleteRange hd h⟩
  · have hlive := ((isLive_deleteRange hd).1 hn).1
    rw [instruction?_deleteRange hd]
    rw [Instruction.mapTargets_congr (g := s.ahead)
      fun t ht => ahead_deleteRange_of_isLive hd (htarget hn hi ht)]
    exact h.instruction hlive hi
  · rw [ahead_deleteRange_of_isLive hd (htarget hn hi ht), hsize]
    exact h.target ((isLive_deleteRange hd).1 hn).1 hi ht

end Thins

end DeleteRange

/-! ### Deleting several nodes -/

/-- The stream without several nodes, deleted one after the other. -/
def deleteAll (s : CodeStream) (ids : List Nat) : Except DanglingTarget CodeStream :=
  ids.foldlM CodeStream.deleteOne s

section DeleteAll

variable {ids : List Nat}

/-- Deleting several nodes is deleting one after the other. -/
theorem deleteAll_cons_eq_ok : s.deleteAll (id :: ids) = .ok s' ↔
    ∃ next, s.deleteOne id = .ok next ∧ next.deleteAll ids = .ok s' := by
  rw [deleteAll, List.foldlM_cons]
  cases hd : s.deleteOne id with
  | error e =>
      constructor
      · intro h
        cases h
      · rintro ⟨next, h, -⟩
        cases h
  | ok next =>
      constructor
      · intro h
        exact ⟨next, rfl, h⟩
      · rintro ⟨other, h, hrest⟩
        cases h
        exact hrest

/-- What one deletion keeps, several keep. A node that is dead already is not
deleted again. -/
theorem deleteAll_induction {P : CodeStream → Prop} (h : s.deleteAll ids = .ok s') (hs : P s)
    (step : ∀ {s s' id}, id ∈ ids → s.isLive id → s.deleteOne id = .ok s' → P s → P s') :
    P s' := by
  induction ids generalizing s with
  | nil =>
      cases h
      exact hs
  | cons id ids ih =>
      obtain ⟨next, hd, hrest⟩ := deleteAll_cons_eq_ok.1 h
      refine ih hrest ?_ fun hmem => step (List.mem_cons_of_mem _ hmem)
      by_cases hid : s.isLive id
      · exact step List.mem_cons_self hid hd hs
      · rw [deleteOne_of_not_isLive hid] at hd
        cases hd
        exact hs

theorem size_deleteAll (h : s.deleteAll ids = .ok s') : s'.nodes.size = s.nodes.size :=
  deleteAll_induction (P := fun t => t.nodes.size = s.nodes.size) h rfl
    fun _ hid hd ht => (size_deleteOne hd hid).trans ht

theorem position_deleteAll (h : s.deleteAll ids = .ok s') : s'.position n = s.position n :=
  deleteAll_induction (P := fun t => t.position n = s.position n) h rfl
    fun _ hid hd ht => (position_deleteOne hd hid).trans ht

theorem instruction?_deleteAll {insn : Instruction Nat} (h : s.deleteAll ids = .ok s')
    (hi : s.instruction? n = some insn) (ht : insn.targets = []) :
    s'.instruction? n = some insn :=
  deleteAll_induction (P := fun t => t.instruction? n = some insn) h hi
    fun _ hid hd hi => instruction?_deleteOne_of_targets hd hid hi ht

/-- What is dead afterwards are the nodes that were named. -/
theorem isLive_deleteAll (h : s.deleteAll ids = .ok s') :
    s'.isLive n ↔ s.isLive n ∧ n ∉ ids := by
  induction ids generalizing s with
  | nil =>
      cases h
      simp
  | cons id ids ih =>
      obtain ⟨next, hd, hrest⟩ := deleteAll_cons_eq_ok.1 h
      have hnext : next.isLive n ↔ s.isLive n ∧ n ≠ id := by
        by_cases hid : s.isLive id
        · rw [isLive_deleteOne hd hid]
          simp
        · rw [deleteOne_of_not_isLive hid] at hd
          cases hd
          refine ⟨fun hn => ⟨hn, ?_⟩, And.left⟩
          rintro rfl
          exact hid hn
      rw [ih hrest, hnext, List.mem_cons, not_or, and_assoc]

/-- Nodes in front of one that stays can be deleted. -/
theorem exists_deleteAll {k : Nat} (hk : s.isLive k) (hids : ∀ id ∈ ids, id < k) :
    ∃ s', s.deleteAll ids = .ok s' := by
  induction ids generalizing s with
  | nil => exact ⟨s, rfl⟩
  | cons id ids ih =>
      rw [List.forall_mem_cons] at hids
      obtain ⟨next, hd, hlive⟩ : ∃ next, s.deleteOne id = .ok next ∧ next.isLive k := by
        by_cases hid : s.isLive id
        · have hlt : s.ahead (id + 1) < s.nodes.size :=
            (ahead_le_of_isLive hids.1 hk).trans_lt (lt_size_of_isLive hk)
          have hd := (deleteOne_eq_ok_iff hid).2 (.inl ⟨hlt, rfl⟩)
          refine ⟨_, hd, ?_⟩
          rw [isLive_deleteOne hd hid]
          simpa [hk] using hids.1.ne'
        · exact ⟨s, deleteOne_of_not_isLive hid, hk⟩
      obtain ⟨s', hrest⟩ := ih hlive hids.2
      exact ⟨s', deleteAll_cons_eq_ok.2 ⟨next, hd, hrest⟩⟩

/-- What leads to live nodes leads to the next ones that are left. -/
theorem Thins.instruction_deleteAll (h : s.Thins m) (hd : s.deleteAll ids = .ok s')
    (hn : s'.isLive n) :
    s'.instruction? n = (s.instruction? n).map (·.mapTargets s'.ahead) := by
  revert hn
  refine deleteAll_induction (P := fun t => t.isLive n →
    t.instruction? n = (s.instruction? n).map (·.mapTargets t.ahead)) hd (fun hn => ?_)
    fun {t t' id} _ hid hd ih hn => ?_
  · obtain ⟨insn, hi⟩ := h.exists_code hn
    obtain ⟨other, ho⟩ := exists_instruction_of_lt (lt_size_of_isLive hn)
    rw [ho, Option.map_some, Instruction.mapTargets_eq_self]
    intro t ht
    rw [← targets_of_instruction? ho, h.targets hn hi] at ht
    obtain ⟨u, hu, rfl⟩ := List.mem_map.1 ht
    exact ahead_of_isLive (isLive_ahead (h.target hn hi hu))
  · obtain ⟨hn, hne⟩ := isLive_of_deleteOne hd hid hn
    have hahead : t'.ahead = moved id (t.ahead (id + 1)) ∘ t.ahead :=
      funext fun u => ahead_deleteOne hd hid
    rw [instruction?_deleteOne hd hid hn hne, ih hn, hahead]
    cases s.instruction? n with
    | none => rfl
    | some insn => rw [Option.map_some, Option.map_some, Option.map_some,
        Instruction.mapTargets_mapTargets]

theorem Thins.deleteAll (h : s.Thins m) (hd : s.deleteAll ids = .ok s') : s'.Thins m :=
  deleteAll_induction (P := fun t => t.Thins m) hd h fun _ hid hd ht => ht.deleteOne hd hid

end DeleteAll

end JvmOptimizer.CodeStream
