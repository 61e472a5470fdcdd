import JvmOptimizer.Bytes
import Mathlib.Tactic.Ring

/-!
# Reading back what was written

`Reader.Reads read offset bytes a` says that a reader which stands behind
`offset` bytes takes exactly `bytes` off whatever follows and returns `a`. The
relation composes like the readers do, so a format is read back as soon as each
of its fields is.

The other direction needs less: `Reader.Yields read P` says that whatever a
reader returns has the property `P`, and composes in the same way. Where the
bytes count as well, `Reader.Consumes read R` says that what a reader returns and
the bytes it took for it are related by `R`.
-/

namespace JvmOptimizer

/-! ### Words -/

/-- Reading digits on top of what was read before. Of the number itself only the
part that fits is left. -/
theorem foldl_bigEndian (width n acc : Nat) :
    (bigEndian width n).foldl (fun n byte => n * 256 + byte.toNat) acc =
      acc * 256 ^ width + n % 256 ^ width := by
  induction width generalizing acc with
  | zero => simp [bigEndian, Nat.mod_one]
  | succ width ih =>
      have hpow : Nat.pow 256 width = 256 ^ width := rfl
      have hmod : n % 256 ^ (width + 1) = n % 256 ^ width + 256 ^ width * (n / 256 ^ width % 256) :=
        Nat.mod_pow_succ
      simp only [bigEndian, List.foldl_cons, ih, UInt8.toNat_ofNat', hpow, hmod]
      ring

/-- A word is read back up to its width. -/
@[simp]
theorem ofBigEndian_bigEndian (width n : Nat) :
    ofBigEndian (bigEndian width n) = n % 256 ^ width := by
  simp [ofBigEndian, foldl_bigEndian]

/-- Behind a number, a byte string spells that number times the weight of the
string, and something below the weight. -/
theorem exists_foldl_bytes (bytes : Bytes) (acc : Nat) : ∃ low, low < 256 ^ bytes.length ∧
    bytes.foldl (fun n byte => n * 256 + byte.toNat) acc = acc * 256 ^ bytes.length + low := by
  induction bytes generalizing acc with
  | nil => exact ⟨0, by simp, by simp⟩
  | cons byte bytes ih =>
      obtain ⟨low, hlow, heq⟩ := ih (acc * 256 + byte.toNat)
      refine ⟨byte.toNat * 256 ^ bytes.length + low, ?_, ?_⟩
      · have hbyte : byte.toNat + 1 ≤ 256 := byte.toNat_lt
        have hmul := Nat.mul_le_mul_right (256 ^ bytes.length) hbyte
        rw [List.length_cons, pow_succ, Nat.mul_comm _ 256]
        rw [Nat.add_mul, Nat.one_mul] at hmul
        omega
      · rw [List.foldl_cons, heq, List.length_cons]
        ring

/-- A byte string spells the word that it was read as. -/
theorem bigEndian_foldl (bytes : Bytes) (acc : Nat) :
    bigEndian bytes.length (bytes.foldl (fun n byte => n * 256 + byte.toNat) acc) = bytes := by
  induction bytes generalizing acc with
  | nil => rfl
  | cons byte bytes ih =>
      obtain ⟨low, hlow, heq⟩ := exists_foldl_bytes bytes (acc * 256 + byte.toNat)
      rw [List.length_cons, bigEndian, List.foldl_cons, ih, heq]
      have hdiv : ((acc * 256 + byte.toNat) * 256 ^ bytes.length + low) /
          Nat.pow 256 bytes.length = acc * 256 + byte.toNat := by
        change _ / 256 ^ bytes.length = _
        have hpos : 0 < 256 ^ bytes.length := Nat.pow_pos (by omega)
        rw [Nat.mul_comm, Nat.mul_add_div hpos, Nat.div_eq_of_lt hlow, Nat.add_zero]
      have hbyte : UInt8.ofNat (acc * 256 + byte.toNat) = byte := by
        apply UInt8.toNat_inj.1
        have := byte.toNat_lt
        rw [UInt8.toNat_ofNat']
        omega
      rw [hdiv, hbyte]

namespace Reader

variable {ε α β : Type}

/-- Behind `offset` bytes, the reader takes `bytes` off whatever follows and
returns `a`. -/
def Reads (read : Reader ε α) (offset : Nat) (bytes : Bytes) (a : α) : Prop :=
  ∀ rest, read ⟨offset, bytes ++ rest⟩ = .ok (a, ⟨offset + bytes.length, rest⟩)

namespace Reads

variable {read : Reader ε α} {next : α → Reader ε β} {start : Nat} {bytes bytes' : Bytes}
  {a : α} {b : β}

theorem pure (a : α) : Reads (Pure.pure a : Reader ε α) start [] a :=
  fun _ => rfl

/-- What is read in two steps stands one behind the other. -/
theorem bind (h : Reads read start bytes a)
    (hnext : Reads (next a) (start + bytes.length) bytes' b) :
    Reads (read >>= next) start (bytes ++ bytes') b := by
  intro rest
  change (read ⟨start, bytes ++ bytes' ++ rest⟩ >>= fun p => next p.1 p.2) = _
  rw [List.append_assoc, h, List.length_append, ← Nat.add_assoc]
  exact hnext rest

theorem map (f : α → β) (h : Reads read start bytes a) :
    Reads (do return f (← read)) start bytes (f a) := by
  have h' : Reads (read >>= fun a => Pure.pure (f a)) start (bytes ++ []) (f a) :=
    h.bind (pure (f a))
  rwa [List.append_nil] at h'

/-- A reader that starts by asking where it stands. -/
theorem offset_bind {next : Nat → Reader ε β} (h : Reads (next start) start bytes b) :
    Reads (offset >>= next) start bytes b :=
  h

/-- What comes behind a string that is read back. -/
theorem bind_apply (h : Reads read start bytes a) (next : α → Reader ε β) (rest : Bytes) :
    (read >>= next) ⟨start, bytes ++ rest⟩ = next a ⟨start + bytes.length, rest⟩ := by
  change (read ⟨start, bytes ++ rest⟩ >>= fun p => next p.1 p.2) = _
  rw [h rest]
  rfl

variable [Truncation ε]

/-- Any bytes at all are read by taking as many. -/
theorem take (bytes : Bytes) : Reads (take bytes.length : Reader ε Bytes) start bytes bytes := by
  intro rest
  simp [Reader.take]

/-- A number that is too large for its width is read back cut off. -/
theorem word (width n : Nat) :
    Reads (word width : Reader ε Nat) start (bigEndian width n) (n % 256 ^ width) := by
  have h : Reads (Reader.take _ : Reader ε Bytes) start _ _ := take (bigEndian width n)
  rw [length_bigEndian] at h
  have hword := h.map ofBigEndian
  rwa [ofBigEndian_bigEndian] at hword

theorem u8 (byte : UInt8) : Reads (u8 : Reader ε UInt8) start [byte] byte := by
  have h : Reads (Reader.word 1 : Reader ε Nat) start [byte] (byte.toNat % 256 ^ 1) := by
    simpa [bigEndian] using word (ε := ε) 1 byte.toNat
  have hbyte : UInt8.ofNat (byte.toNat % 256 ^ 1) = byte := by simp
  have hmap := h.map UInt8.ofNat
  rwa [hbyte] at hmap

theorem u16 (n : Nat) : Reads (u16 : Reader ε UInt16) start (bigEndian 2 n) (UInt16.ofNat n) := by
  have hmod : UInt16.ofNat (n % 256 ^ 2) = UInt16.ofNat n := UInt16.ofNat_mod_size
  rw [← hmod]
  exact (word 2 n).map UInt16.ofNat

theorem u32 (n : Nat) : Reads (u32 : Reader ε UInt32) start (bigEndian 4 n) (UInt32.ofNat n) := by
  have hmod : UInt32.ofNat (n % 256 ^ 4) = UInt32.ofNat n := UInt32.ofNat_mod_size
  rw [← hmod]
  exact (word 4 n).map UInt32.ofNat

theorem u64 (n : Nat) : Reads (u64 : Reader ε UInt64) start (bigEndian 8 n) (UInt64.ofNat n) := by
  have hmod : UInt64.ofNat (n % 256 ^ 8) = UInt64.ofNat n := UInt64.ofNat_mod_size
  rw [← hmod]
  exact (word 8 n).map UInt64.ofNat

theorem wordBytes (w : UInt16) : Reads (Reader.u16 : Reader ε UInt16) start (wordBytes w) w := by
  simpa [JvmOptimizer.wordBytes] using u16 (ε := ε) w.toNat

theorem doubleWordBytes (w : UInt32) :
    Reads (Reader.u32 : Reader ε UInt32) start (doubleWordBytes w) w := by
  simpa [JvmOptimizer.doubleWordBytes] using u32 (ε := ε) w.toNat

theorem quadWordBytes (w : UInt64) :
    Reads (Reader.u64 : Reader ε UInt64) start (quadWordBytes w) w := by
  simpa [JvmOptimizer.quadWordBytes] using u64 (ε := ε) w.toNat

omit [Truncation ε] in
/-- The items found so far are kept the wrong way round, so the induction is on
the items still to come, for any list of earlier ones. -/
private theorem manyAfter {γ : Type} {spell : γ → Bytes} {value : γ → α} {xs : List γ}
    (h : ∀ x ∈ xs, ∀ start, Reads read start (spell x) (value x)) (found : List α) :
    Reads (manyAfter read xs.length found) start (xs.flatMap spell)
      (found.reverse ++ xs.map value) := by
  induction xs generalizing start found with
  | nil => simpa [Reader.manyAfter] using pure found.reverse
  | cons x xs ih =>
      rw [List.forall_mem_cons] at h
      have hrest : Reads (Reader.manyAfter read xs.length (value x :: found))
          (start + (spell x).length) (xs.flatMap spell)
          ((value x :: found).reverse ++ xs.map value) := ih h.2 (value x :: found)
      rw [List.reverse_cons, List.append_assoc, List.singleton_append, ← List.map_cons] at hrest
      exact (h.1 start).bind hrest

omit [Truncation ε] in
/-- A list whose members are read back wherever they stand. -/
theorem many {γ : Type} {spell : γ → Bytes} {value : γ → α} {xs : List γ}
    (h : ∀ x ∈ xs, ∀ start, Reads read start (spell x) (value x)) :
    Reads (many read xs.length) start (xs.flatMap spell) (xs.map value) :=
  manyAfter h []

end Reads

/-- Whatever the reader returns has the property. -/
def Yields (read : Reader ε α) (P : α → Prop) : Prop :=
  ∀ cursor a cursor', read cursor = .ok (a, cursor') → P a

/-- A reader that succeeds did so step by step, each from where the last one
stopped. -/
theorem bind_eq_ok {read : Reader ε α} {next : α → Reader ε β} {cursor : Cursor}
    {r : β × Cursor} : (read >>= next) cursor = .ok r ↔
      ∃ a cursor', read cursor = .ok (a, cursor') ∧ next a cursor' = .ok r := by
  change (read cursor >>= fun p => next p.1 p.2) = .ok r ↔ _
  cases h : read cursor with
  | error e => simp [bind, Except.bind]
  | ok p =>
      obtain ⟨a, cursor'⟩ := p
      simp [bind, Except.bind]

theorem exists_of_runOn {read : Reader ε α} {bytes : Bytes} {a : α}
    (h : read.runOn bytes = .ok a) : ∃ cursor, read (Cursor.start bytes) = .ok (a, cursor) := by
  unfold runOn at h
  cases hread : read (Cursor.start bytes) with
  | error e =>
      rw [hread] at h
      cases h
  | ok r =>
      rw [hread] at h
      cases h
      exact ⟨r.2, rfl⟩

theorem map_apply (f : α → β) (read : Reader ε α) (cursor : Cursor) :
    (f <$> read) cursor = (read cursor).map fun p => (f p.1, p.2) := by
  change (read cursor >>= fun p => pure (f p.1, p.2)) = _
  cases read cursor <;> rfl

namespace Yields

variable {read : Reader ε α} {next : α → Reader ε β} {P : α → Prop} {Q : β → Prop}

theorem any (read : Reader ε α) : Yields read fun _ => True := fun _ _ _ _ => trivial

theorem pure {a : α} (h : P a) : Yields (Pure.pure a : Reader ε α) P := by
  intro cursor a' cursor' hread
  cases hread
  exact h

theorem throw {e : ε} : Yields (throw e : Reader ε α) P := by
  intro cursor a cursor' hread
  cases hread

/-- What the first reader yields may be used for the second. -/
theorem bind (h : Yields read P) (hnext : ∀ a, P a → Yields (next a) Q) :
    Yields (read >>= next) Q := by
  intro cursor b cursor' hread
  obtain ⟨a, middle, ha, hb⟩ := bind_eq_ok.1 hread
  exact hnext a (h _ _ _ ha) _ _ _ hb

/-- What holds of every result needs no look at the reader. -/
theorem bind_any (hnext : ∀ a, Yields (next a) Q) : Yields (read >>= next) Q :=
  (any read).bind fun a _ => hnext a

/-- A check behind a reader. -/
theorem guard {c : Prop} [Decidable c] {e : ε} {next : Reader ε β} (h : ¬ c → Yields next Q) :
    Yields (if c then (do MonadExcept.throw e; next) else next) Q := by
  by_cases hc : c
  · rw [if_pos hc]
    have hthrow : Yields (MonadExcept.throw e : Reader ε PUnit) fun _ => False := throw
    exact hthrow.bind fun _ hfalse => hfalse.elim
  · rw [if_neg hc]
    exact h hc

/-- Reading a whole string yields what the reader yields. -/
theorem runOn (h : Yields read P) {bytes : Bytes} {a : α} (hrun : read.runOn bytes = .ok a) :
    P a := by
  obtain ⟨cursor, hread⟩ := exists_of_runOn hrun
  exact h _ _ _ hread

theorem take [Truncation ε] (n : Nat) :
    Yields (take n : Reader ε Bytes) fun bytes => bytes.length = n := by
  intro cursor bytes cursor' hread
  simp only [Reader.take] at hread
  split at hread
  · cases hread
    assumption
  · cases hread

/-- The invariant of the loop: the count goes down as the items go up. -/
private theorem manyAfter (h : Yields read P) {count : Nat} {found : List α}
    (hfound : ∀ a ∈ found, P a) : Yields (manyAfter read count found) fun values =>
      values.length = found.length + count ∧ ∀ a ∈ values, P a := by
  induction count generalizing found with
  | zero => exact pure ⟨by simp, by simpa using hfound⟩
  | succ count ih =>
      refine h.bind fun a ha => ?_
      intro cursor values cursor' hread
      obtain ⟨hlength, hall⟩ := ih (List.forall_mem_cons.2 ⟨ha, hfound⟩) _ _ _ hread
      rw [List.length_cons] at hlength
      exact ⟨by omega, hall⟩

/-- As many values as were asked for, and each is one that the reader yields. -/
theorem many (h : Yields read P) (count : Nat) : Yields (many read count) fun values =>
    values.length = count ∧ ∀ a ∈ values, P a := by
  intro cursor values cursor' hread
  have hvalues := manyAfter h (by simp) _ _ _ hread
  simpa using hvalues

end Yields

/-- What the reader returns and the bytes it took for it are related. -/
def Consumes (read : Reader ε α) (R : α → Bytes → Prop) : Prop :=
  ∀ cursor a cursor', read cursor = .ok (a, cursor') →
    ∃ bytes, cursor.rest = bytes ++ cursor'.rest ∧ R a bytes

namespace Consumes

variable {read : Reader ε α} {next : α → Reader ε β} {R : α → Bytes → Prop}
  {Q : β → Bytes → Prop}

theorem pure {a : α} (h : R a []) : Consumes (Pure.pure a : Reader ε α) R := by
  intro cursor a' cursor' hread
  cases hread
  exact ⟨[], rfl, h⟩

theorem throw {e : ε} : Consumes (throw e : Reader ε α) R := by
  intro cursor a cursor' hread
  cases hread

/-- A weaker description of what was consumed. -/
theorem mono {R' : α → Bytes → Prop} (h : Consumes read R)
    (himp : ∀ a bytes, R a bytes → R' a bytes) : Consumes read R' := by
  intro cursor a cursor' hread
  obtain ⟨bytes, hbytes, hR⟩ := h _ _ _ hread
  exact ⟨bytes, hbytes, himp a bytes hR⟩

theorem get : Consumes (get : Reader ε Cursor) fun _ bytes => bytes = [] := by
  intro cursor a cursor' hread
  cases hread
  exact ⟨[], rfl, rfl⟩

/-- What is taken in two steps stands one behind the other. -/
theorem bind (h : Consumes read R)
    (hnext : ∀ a front, R a front → Consumes (next a) fun b back => Q b (front ++ back)) :
    Consumes (read >>= next) Q := by
  intro cursor b cursor' hread
  obtain ⟨a, middle, ha, hb⟩ := bind_eq_ok.1 hread
  obtain ⟨front, hfront, hR⟩ := h _ _ _ ha
  obtain ⟨back, hback, hQ⟩ := hnext a front hR _ _ _ hb
  exact ⟨front ++ back, by rw [hfront, hback, List.append_assoc], hQ⟩

theorem map (h : Consumes read R) (f : α → β) (himp : ∀ a bytes, R a bytes → Q (f a) bytes) :
    Consumes (do return f (← read)) Q :=
  h.bind fun a front hR => pure (by simpa using himp a front hR)

/-- A check behind a reader. -/
theorem guard {c : Prop} [Decidable c] {e : ε} {next : Reader ε β}
    (h : ¬ c → Consumes next Q) :
    Consumes (if c then (do MonadExcept.throw e; next) else next) Q := by
  by_cases hc : c
  · rw [if_pos hc]
    have hthrow : Consumes (MonadExcept.throw e : Reader ε PUnit) fun _ _ => False := throw
    exact hthrow.bind fun _ _ hfalse => hfalse.elim
  · rw [if_neg hc]
    exact h hc

/-- The bytes of the items found after `found`, by induction on how many are left.
-/
private theorem manyAfter (h : Consumes read R) {spell : α → Bytes} {P : α → Prop}
    (hR : ∀ a bytes, R a bytes → bytes = spell a ∧ P a) {count : Nat} {found : List α} :
    Consumes (manyAfter read count found) fun values bytes =>
      ∃ new, values = found.reverse ++ new ∧ new.length = count ∧ bytes = new.flatMap spell ∧
        ∀ a ∈ new, P a := by
  induction count generalizing found with
  | zero => exact pure ⟨[], by simp, rfl, rfl, by simp⟩
  | succ count ih =>
      refine h.bind fun a front ha => ih.mono fun values back hvalues => ?_
      obtain ⟨rfl, hP⟩ := hR a front ha
      obtain ⟨new, rfl, rfl, rfl, hnew⟩ := hvalues
      exact ⟨a :: new, by simp, rfl, rfl, List.forall_mem_cons.2 ⟨hP, hnew⟩⟩

/-- A list whose members are taken as they are spelled. -/
theorem many (h : Consumes read R) {spell : α → Bytes} {P : α → Prop}
    (hR : ∀ a bytes, R a bytes → bytes = spell a ∧ P a) (count : Nat) :
    Consumes (many read count) fun values bytes =>
      values.length = count ∧ bytes = values.flatMap spell ∧ ∀ a ∈ values, P a := by
  refine (manyAfter h hR).mono fun values bytes hvalues => ?_
  obtain ⟨new, rfl, hlength, hbytes, hall⟩ := hvalues
  exact ⟨hlength, hbytes, hall⟩

variable [Truncation ε]

theorem take (n : Nat) :
    Consumes (take n : Reader ε Bytes) fun a bytes => bytes = a ∧ a.length = n := by
  intro cursor a cursor' hread
  simp only [Reader.take] at hread
  split at hread
  · cases hread
    exact ⟨_, (List.take_append_drop n cursor.rest).symm, rfl, by assumption⟩
  · cases hread

/-- A number that was read has one spelling of its width, and these are its bytes.
-/
theorem word (width : Nat) : Consumes (word width : Reader ε Nat) fun n bytes =>
    bytes = bigEndian width n ∧ n < 256 ^ width := by
  refine (take width).map ofBigEndian fun a bytes ha => ?_
  obtain ⟨rfl, rfl⟩ := ha
  obtain ⟨low, hlow, heq⟩ := exists_foldl_bytes bytes 0
  rw [Nat.zero_mul, Nat.zero_add] at heq
  exact ⟨(bigEndian_foldl bytes 0).symm, by rwa [ofBigEndian, heq]⟩

theorem u8 : Consumes (u8 : Reader ε UInt8) fun byte bytes => bytes = [byte] := by
  refine (word 1).map UInt8.ofNat fun n bytes hn => ?_
  simpa [bigEndian] using hn.1

theorem u16 : Consumes (u16 : Reader ε UInt16) fun w bytes => bytes = wordBytes w := by
  refine (word 2).map UInt16.ofNat fun n bytes hn => ?_
  rw [wordBytes, UInt16.toNat_ofNat_of_lt' hn.2]
  exact hn.1

theorem u32 : Consumes (u32 : Reader ε UInt32) fun w bytes => bytes = doubleWordBytes w := by
  refine (word 4).map UInt32.ofNat fun n bytes hn => ?_
  rw [doubleWordBytes, UInt32.toNat_ofNat_of_lt' hn.2]
  exact hn.1

theorem u64 : Consumes (u64 : Reader ε UInt64) fun w bytes => bytes = quadWordBytes w := by
  refine (word 8).map UInt64.ofNat fun n bytes hn => ?_
  rw [quadWordBytes, UInt64.toNat_ofNat_of_lt' hn.2]
  exact hn.1

end Consumes

/-- The reader leaves nothing behind. -/
def Exhausts (read : Reader ε α) : Prop :=
  ∀ cursor a cursor', read cursor = .ok (a, cursor') → cursor'.rest = []

namespace Exhausts

/-- If what comes last leaves nothing over, the whole does not. -/
theorem bind {read : Reader ε α} {next : α → Reader ε β} (h : ∀ a, Exhausts (next a)) :
    Exhausts (read >>= next) := by
  intro cursor b cursor' hread
  obtain ⟨a, middle, -, hb⟩ := bind_eq_ok.1 hread
  exact h a _ _ _ hb

theorem guard {c : Prop} [Decidable c] {e : ε} {next : Reader ε β} (h : Exhausts next) :
    Exhausts (if c then (do MonadExcept.throw e; next) else next) := by
  split
  · exact bind fun _ => h
  · exact h

/-- A reader that ends by checking what is left over. -/
theorem check (f : Nat → ε) (a : α) : Exhausts (ε := ε) (do
    let rest := (← get).rest.length
    if rest ≠ 0 then
      throw (f rest)
    return a) := by
  intro cursor b cursor' hread
  obtain ⟨c, middle, hget, hrest⟩ := bind_eq_ok.1 hread
  cases hget
  by_cases hzero : cursor.rest.length = 0
  · simp only [hzero, ne_eq, not_true_eq_false, if_false] at hrest
    cases hrest
    exact List.length_eq_zero_iff.1 hzero
  · simp only [ne_eq, hzero, not_false_eq_true, if_true] at hrest
    cases hrest

end Exhausts

/-- A reader that leaves nothing behind takes the whole byte string. -/
theorem Consumes.runOn {read : Reader ε α} {R : α → Bytes → Prop} (h : Consumes read R)
    (hall : Exhausts read) {bytes : Bytes} {a : α} (hrun : read.runOn bytes = .ok a) :
    R a bytes := by
  obtain ⟨cursor, hread⟩ := exists_of_runOn hrun
  obtain ⟨front, hfront, hR⟩ := h _ _ _ hread
  rw [hall _ _ _ hread, List.append_nil] at hfront
  rwa [show bytes = front from hfront]

end Reader

end JvmOptimizer
