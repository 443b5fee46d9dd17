import Wasm.Proofs.Codec

/-!
# Wasm.Proofs.Checked

Decoders with their operations checked and their items counted.

* `Checked` is a monad that decoders can run in. Beside the position it keeps a count of what has
  been decoded, and beside the errors of a `Reader` it has the faults of `Checked.Fault`.
* In it a difference below zero and a slice that does not lie within the bytes end in a fault, where
  the functions on numbers and arrays would give some value. So do an item of a vector that has had
  as many items as bytes were left when it started, and bytes that are left at the end.
* `Checks view pos c r P`: at this position the checked decoder `c` does what the reader `r` does,
  without a fault. `P` holds of what is read, of the number of bytes it takes and of the number of
  items counted, which are no more than the bytes.

The primitive readers come to the end of the bytes rather than out of their range, and are run as
they are. `Checks` is closed under sequencing, so that what is said of a decoder follows its
definition. For a vector, it is enough that each item takes a byte which is not counted as part of
the item (`Checks.Item`).
-/

namespace Wasm

/-! ## Checked decoders -/

namespace Checked

/-- What a checked decoder must not do. -/
inductive Fault where
  /-- A slice that does not lie within the bytes. -/
  | slice (start stop size : Nat)
  /-- A difference below zero. -/
  | difference (a b : Nat)
  /-- A vector with more items than bytes were left when it started. -/
  | crowded (items left : Nat)
  /-- A loop that has not ended. -/
  | unfinished (pos : Nat)
  deriving DecidableEq, Repr

/-- Why a checked decoder stops early. -/
inductive Failure where
  | read (e : ReadError)
  | fault (f : Fault)
  deriving DecidableEq, Repr

/-- What a checked decoder sees: the bytes, and how many of them were left when the vector started
that is being read. -/
structure View where
  bytes : Array UInt8
  left : Nat := 0
  deriving DecidableEq, Repr

/-- Where a checked decoder stands, and how many items have been decoded up to there. -/
structure State where
  pos : Nat
  decoded : Nat
  deriving DecidableEq, Repr

end Checked

/-- The monad of decoders that count what they decode and may end in a fault. -/
abbrev Checked := ReaderT Checked.View (EStateM Checked.Failure Checked.State)

namespace Checked

def runAt (c : Checked α) (view : View) (s : State) : EStateM.Result Failure State α :=
  c view s

/-- A reader without faults that decodes no items. -/
def lift (r : Reader α) : Checked α := fun view s =>
  match r.runAt view.bytes s.pos with
  | .ok a stop => .ok a { s with pos := stop }
  | .error e stop => .error (.read e) { s with pos := stop }

instance : MonadLift Reader Checked := ⟨lift⟩

def fault (f : Fault) : Checked α := fun _ s => .error (.fault f) s

def subtract (a b : Nat) : Checked Nat :=
  if a < b then fault (.difference a b) else return a - b

/-- The bytes from `start` up to `stop`. -/
def slice (start stop : Nat) : Checked (Array UInt8) := fun view s =>
  if start ≤ stop ∧ stop ≤ view.bytes.size then .ok (view.bytes.extract start stop) s
  else .error (.fault (.slice start stop view.bytes.size)) s

def within (stop : Nat) (c : Checked α) : Checked α := do
  let window ← slice 0 stop
  fun view s => c { view with bytes := window } s

def captured (c : Checked α) : Checked (Array UInt8) := do
  let start ← Reader.offset
  let _ ← c
  let n ← subtract (← Reader.offset) start
  slice start (start + n)

def vector (c : Checked α) : Checked α := fun view s =>
  c { view with left := view.bytes.size - s.pos } s

/-- Count what has been read as so many items. -/
def tally (weight : α → Nat) (c : Checked α) : Checked α := fun view s =>
  match c view s with
  | .ok a s' => .ok a { s' with decoded := s'.decoded + weight a }
  | .error e s' => .error e s'

def item (number : Nat) (c : Checked α) : Checked α := do
  let a ← tally (fun _ => 1) c
  let left := (← read).left
  if left < number then fault (.crowded number left) else return a

def finished : Checked Unit := do
  if ← Reader.atEnd then return () else fault (.unfinished (← Reader.offset))

instance : Decoder Checked where
  subtract := subtract
  within := within
  captured := captured
  vector := vector
  item := item
  tally := tally
  finished := finished

/-! ## Running checked decoders -/

variable {view : View}

/-- After a first part that succeeds, the second one goes on from its state. -/
theorem runAt_bind_of_ok {c : Checked α} (f : α → Checked β) (h : c.runAt view s = .ok a s') :
    (c >>= f).runAt view s = (f a).runAt view s' := by
  unfold runAt at h
  simp only [runAt, Bind.bind, ReaderT.bind, EStateM.bind, h]

theorem runAt_bind_of_error {c : Checked α} (f : α → Checked β)
    (h : c.runAt view s = .error e s') : (c >>= f).runAt view s = .error e s' := by
  unfold runAt at h
  simp only [runAt, Bind.bind, ReaderT.bind, EStateM.bind, h]

/-- A reader inside a checked decoder counts nothing. -/
theorem runAt_liftM_of_ok {r : Reader α} (h : r.runAt view.bytes pos = .ok a stop) (d : Nat) :
    (liftM r : Checked α).runAt view ⟨pos, d⟩ = .ok a ⟨stop, d⟩ := by
  simp only [runAt, liftM, monadLift, MonadLift.monadLift, lift, h]

/-- Its error is not a fault. -/
theorem runAt_liftM_of_error {r : Reader α} (h : r.runAt view.bytes pos = .error e stop)
    (d : Nat) : (liftM r : Checked α).runAt view ⟨pos, d⟩ = .error (.read e) ⟨stop, d⟩ := by
  simp only [runAt, liftM, monadLift, MonadLift.monadLift, lift, h]

theorem runAt_offset (pos d : Nat) :
    (liftM Reader.offset : Checked Nat).runAt view ⟨pos, d⟩ = .ok pos ⟨pos, d⟩ := rfl

/-- A difference that is not negative is no fault. -/
theorem runAt_subtract {a b : Nat} (h : b ≤ a) (s : State) :
    (subtract a b).runAt view s = .ok (a - b) s := by
  rw [subtract, if_neg (Nat.not_lt.mpr h)]
  rfl

/-- Nor is a slice inside the data. -/
theorem runAt_slice {start stop : Nat} (hle : start ≤ stop) (hstop : stop ≤ view.bytes.size)
    (s : State) : (slice start stop).runAt view s = .ok (view.bytes.extract start stop) s := by
  rw [runAt, slice, if_pos ⟨hle, hstop⟩]

/-- At the end of the data, nothing is left over. -/
theorem runAt_finished (hend : view.bytes.size ≤ pos) (d : Nat) :
    finished.runAt view ⟨pos, d⟩ = .ok () ⟨pos, d⟩ := by
  have hatEnd : Reader.atEnd.runAt view.bytes pos = .ok true pos := by
    simp only [Reader.runAt, Reader.atEnd, hend, decide_true]
  rw [finished, runAt_bind_of_ok _ (runAt_liftM_of_ok hatEnd d)]
  rfl

end Checked

open Reader

variable {view : Checked.View}

/-! ## Readers and their checked forms -/

/-- At `pos` the checked decoder `c` does what `r` does, and has no fault. If they succeed, `P`
holds of the result, of the number of bytes it takes and of the number of items that `c` counts,
which is no larger. If they fail, there are as many bytes behind `pos` as items have been
counted. -/
structure Checks (view : Checked.View) (pos : Nat) (c : Checked α) (r : Reader α)
    (P : α → Nat → Nat → Prop) : Prop where
  ok (hpos : pos ≤ view.bytes.size) (a : α) (stop : Nat)
    (hrun : r.runAt view.bytes pos = .ok a stop) :
    ∃ n k, stop = pos + n ∧ stop ≤ view.bytes.size ∧ k ≤ n ∧ P a n k ∧
      ∀ d, c.runAt view ⟨pos, d⟩ = .ok a ⟨stop, d + k⟩
  error (hpos : pos ≤ view.bytes.size) (e : ReadError) (stop : Nat)
    (hrun : r.runAt view.bytes pos = .error e stop) :
    ∃ k, pos + k ≤ view.bytes.size ∧ ∀ d, c.runAt view ⟨pos, d⟩ = .error (.read e) ⟨stop, d + k⟩

namespace Checks

variable {c : Checked α} {r : Reader α} {c' : α → Checked β} {f : α → Reader β}

theorem pure (h : P a 0 0) : Checks view pos (Pure.pure a) (Pure.pure a) P where
  ok hpos b stop hrun := by
    injection hrun with hb hstop
    subst hb hstop
    exact ⟨0, 0, rfl, hpos, Nat.le_refl 0, h, fun d => rfl⟩
  error hpos e stop hrun := by contradiction

/-- What decodes no items needs no counting. -/
theorem lift (h : Yields r P) :
    Checks view pos (liftM r) r fun a n k => P a n ∧ k = 0 where
  ok hpos a stop hrun := by
    obtain ⟨n, hstop, hle, hn⟩ := h view.bytes pos a stop hpos hrun
    exact ⟨n, 0, hstop, hle, Nat.zero_le n, ⟨hn, rfl⟩, Checked.runAt_liftM_of_ok hrun⟩
  error hpos e stop hrun := ⟨0, hpos, Checked.runAt_liftM_of_error hrun⟩

theorem fail (e : ReadError) :
    Checks view pos (liftM (Reader.fail e : Reader α)) (Reader.fail e : Reader α) P where
  ok hpos a stop hrun := by contradiction
  error hpos e' stop hrun := ⟨0, hpos, Checked.runAt_liftM_of_error hrun⟩

/-- Less may be said of what is read. -/
theorem mono (h : Checks view pos c r P) (hQ : ∀ a n k, P a n k → k ≤ n → Q a n k) :
    Checks view pos c r Q where
  ok hpos a stop hrun := by
    obtain ⟨n, k, hstop, hle, hk, hP, hc⟩ := h.ok hpos a stop hrun
    exact ⟨n, k, hstop, hle, hk, hQ a n k hP hk, hc⟩
  error := h.error

/-- Items never outnumber bytes, so this may be used of any part. -/
theorem and_le (h : Checks view pos c r P) : Checks view pos c r fun a n k => P a n k ∧ k ≤ n :=
  h.mono fun _ _ _ hP hk => ⟨hP, hk⟩

/-- Bytes and items of two parts add up. -/
theorem bind (hc : Checks view pos c r P)
    (hf : ∀ a n k, P a n k → Checks view (pos + n) (c' a) (f a) fun b l j => Q b (n + l) (k + j)) :
    Checks view pos (c >>= c') (r >>= f) Q where
  ok hpos b stop hrun := by
    obtain ⟨a, next, ha, hb⟩ := runAt_bind_eq_ok.mp hrun
    obtain ⟨n, k, rfl, hnext, hk, hP, hrunc⟩ := hc.ok hpos a next ha
    obtain ⟨l, j, rfl, hstop, hj, hQ, hrunf⟩ := (hf a n k hP).ok hnext b stop hb
    refine ⟨n + l, k + j, Nat.add_assoc pos n l, hstop, Nat.add_le_add hk hj, hQ, fun d => ?_⟩
    rw [Checked.runAt_bind_of_ok c' (hrunc d), hrunf, Nat.add_assoc d]
  error hpos e stop hrun := by
    rw [runAt_bind] at hrun
    cases hr : r.runAt view.bytes pos with
    | error e' next =>
      rw [hr] at hrun
      injection hrun with he hstop
      subst he hstop
      obtain ⟨k, hk, hrunc⟩ := hc.error hpos e' next hr
      exact ⟨k, hk, fun d => Checked.runAt_bind_of_error c' (hrunc d)⟩
    | ok a next =>
      rw [hr] at hrun
      obtain ⟨n, k, rfl, hnext, hk, hP, hrunc⟩ := hc.ok hpos a next hr
      obtain ⟨j, hj, hrunf⟩ := (hf a n k hP).error hnext e stop hrun
      refine ⟨k + j, by omega, fun d => ?_⟩
      rw [Checked.runAt_bind_of_ok c' (hrunc d), hrunf, Nat.add_assoc d]

/-- A last step that takes no bytes. -/
theorem map (hc : Checks view pos c r P) (f : α → β) (hQ : ∀ a n k, P a n k → Q (f a) n k) :
    Checks view pos (do return f (← c)) (do return f (← r)) Q :=
  hc.bind fun a n k h => .pure (hQ a n k h)

/-- Only what the two readers do counts. -/
theorem of_runAt_eq {c' : Checked α} {r' : Reader α} (h : Checks view pos c' r' P)
    (hc : ∀ d, c.runAt view ⟨pos, d⟩ = c'.runAt view ⟨pos, d⟩)
    (hr : r.runAt view.bytes pos = r'.runAt view.bytes pos) : Checks view pos c r P where
  ok hpos a stop hrun := by
    simp only [hc]
    exact h.ok hpos a stop (hr ▸ hrun)
  error hpos e stop hrun := by
    simp only [hc]
    exact h.error hpos e stop (hr ▸ hrun)

/-- A reader that only looks around. -/
theorem look_bind (ha : r.runAt view.bytes pos = .ok a pos) (h : Checks view pos (c' a) (f a) P) :
    Checks view pos (liftM r >>= c') (r >>= f) P :=
  h.of_runAt_eq (fun d => Checked.runAt_bind_of_ok c' (Checked.runAt_liftM_of_ok ha d))
    (Reader.runAt_bind_of_ok f ha)

/-- The position is known. -/
theorem offset_bind {c' : Nat → Checked β} {f : Nat → Reader β}
    (h : Checks view pos (c' pos) (f pos) P) :
    Checks view pos (liftM offset >>= c') (offset >>= f) P :=
  look_bind (Reader.runAt_offset view.bytes pos) h

/-- A difference is taken where it is not below zero. -/
theorem subtract {a b : Nat} (hle : b ≤ a) :
    Checks view pos (Decoder.subtract a b) (Decoder.subtract a b)
      fun d n k => d = a - b ∧ n = 0 ∧ k = 0 where
  ok hpos d stop hrun := by
    injection hrun with hd hstop
    subst hd hstop
    exact ⟨0, 0, rfl, hpos, Nat.le_refl 0, ⟨rfl, rfl, rfl⟩, fun _ => Checked.runAt_subtract hle _⟩
  error hpos e stop hrun := by contradiction

/-- In each branch the condition may be used. -/
theorem ite {p : Prop} [Decidable p] {c c' : Checked α} {r r' : Reader α}
    (h : p → Checks view pos c r P) (h' : ¬ p → Checks view pos c' r' P) :
    Checks view pos (if p then c else c') (if p then r else r') P := by
  by_cases hp : p
  · rw [if_pos hp, if_pos hp]
    exact h hp
  · rw [if_neg hp, if_neg hp]
    exact h' hp

/-- What is counted must have taken bytes that are not counted yet. -/
theorem tally {weight : α → Nat} (h : Checks view pos c r P)
    (hQ : ∀ a n k, P a n k → k + weight a ≤ n ∧ Q a n (k + weight a)) :
    Checks view pos (Decoder.tally weight c) (Decoder.tally weight r) Q where
  ok hpos a stop hrun := by
    obtain ⟨n, k, hstop, hle, -, hP, hrunc⟩ := h.ok hpos a stop hrun
    obtain ⟨hn, hQ⟩ := hQ a n k hP
    refine ⟨n, k + weight a, hstop, hle, hn, hQ, fun d => ?_⟩
    have hc : c view ⟨pos, d⟩ = .ok a ⟨stop, d + k⟩ := hrunc d
    simp only [Checked.runAt, Decoder.tally, Checked.tally, hc, Nat.add_assoc]
  error hpos e stop hrun := by
    obtain ⟨k, hk, hrunc⟩ := h.error hpos e stop hrun
    refine ⟨k, hk, fun d => ?_⟩
    have hc : c view ⟨pos, d⟩ = .error (.read e) ⟨stop, d + k⟩ := hrunc d
    simp only [Checked.runAt, Decoder.tally, Checked.tally, hc]

/-- The window lies within the bytes, and what is checked in it is checked in them. -/
theorem within (hpos : pos ≤ stop) (hstop : stop ≤ view.bytes.size)
    (h : Checks { view with bytes := view.bytes.extract 0 stop } pos c r P) :
    Checks view pos (Decoder.within stop c) (Decoder.within stop r) P := by
  have hsize : (view.bytes.extract 0 stop).size = stop := by
    rw [Array.size_extract]
    omega
  have hwindow (d : Nat) : (Checked.within stop c).runAt view ⟨pos, d⟩ =
      c.runAt { view with bytes := view.bytes.extract 0 stop } ⟨pos, d⟩ :=
    Checked.runAt_bind_of_ok _ (Checked.runAt_slice (Nat.zero_le stop) hstop ⟨pos, d⟩)
  refine ⟨fun _ a last hrun => ?_, fun _ e last hrun => ?_⟩
  · obtain ⟨n, k, hlast, hle, hk, hP, hrunc⟩ := h.ok (hsize.symm ▸ hpos) a last hrun
    refine ⟨n, k, hlast, ?_, hk, hP, fun d => (hwindow d).trans (hrunc d)⟩
    dsimp only at hle
    omega
  · obtain ⟨k, hk, hrunc⟩ := h.error (hsize.symm ▸ hpos) e last hrun
    refine ⟨k, ?_, fun d => (hwindow d).trans (hrunc d)⟩
    dsimp only at hk
    omega

/-- The bytes passed over are a slice, since readers go forward. -/
theorem captured (h : Checks view pos c r fun _ _ k => k = 0) :
    Checks view pos (Decoder.captured c) (Decoder.captured r)
      fun bs n k => bs.size = n ∧ k = 0 where
  ok hpos bs stop hrun := by
    simp only [Reader.runAt, Decoder.captured, Reader.captured] at hrun
    split at hrun
    · next a next hr =>
      injection hrun with hbs hstop
      subst hbs hstop
      obtain ⟨n, k, rfl, hle, hk, rfl, hrunc⟩ := h.ok hpos a next hr
      have hforward : pos ≤ pos + n := Nat.le_add_right pos n
      refine ⟨n, 0, rfl, hle, hk, ⟨?_, rfl⟩, fun d => ?_⟩
      · rw [Array.size_extract]
        omega
      · simp only [Decoder.captured, Checked.captured]
        rw [Checked.runAt_bind_of_ok _ (Checked.runAt_offset pos d),
          Checked.runAt_bind_of_ok _ (hrunc d),
          Checked.runAt_bind_of_ok _ (Checked.runAt_offset (pos + n) _),
          Checked.runAt_bind_of_ok _ (Checked.runAt_subtract hforward _), Nat.add_sub_cancel_left,
          Checked.runAt_slice hforward hle]
    · contradiction
  error hpos e stop hrun := by
    simp only [Reader.runAt, Decoder.captured, Reader.captured] at hrun
    split at hrun
    · contradiction
    · next e' next hr =>
      injection hrun with he hstop
      subst he hstop
      obtain ⟨k, hk, hrunc⟩ := h.error hpos e' next hr
      refine ⟨k, hk, fun d => ?_⟩
      simp only [Decoder.captured, Checked.captured]
      rw [Checked.runAt_bind_of_ok _ (Checked.runAt_offset pos d),
        Checked.runAt_bind_of_error _ (hrunc d)]

/-- A vector notes how many bytes are left. -/
theorem vector (h : Checks { view with left := view.bytes.size - pos } pos c r P) :
    Checks view pos (Decoder.vector c) (Decoder.vector r) P :=
  ⟨h.ok, h.error⟩

/-- A loop that has come to the end of the bytes is finished. -/
theorem finished (hend : view.bytes.size ≤ pos) :
    Checks view pos Decoder.finished Decoder.finished fun _ n k => n = 0 ∧ k = 0 where
  ok hpos a stop hrun := by
    injection hrun with _ hstop
    subst hstop
    exact ⟨0, 0, rfl, hpos, Nat.le_refl 0, ⟨rfl, rfl⟩, Checked.runAt_finished hend⟩
  error hpos e stop hrun := by contradiction

/-- Passing over bytes and going back leaves the position, and the bytes are there. -/
theorem skip_seek (h : pos + n ≤ view.bytes.size → Checks view pos c r P) :
    Checks view pos (do skip n; seek pos; c) (do skip n; seek pos; r) P := by
  by_cases hle : pos + n ≤ view.bytes.size
  · have hskip : (skip n).runAt view.bytes pos = .ok () (pos + n) :=
      runAt_map_eq_ok.mpr ⟨_, runAt_bytes_eq_ok.mpr ⟨hle, rfl, rfl⟩, rfl⟩
    have hseek : (seek pos).runAt view.bytes (pos + n) = .ok () pos :=
      runAt_seek_eq_ok.mpr ⟨by omega, rfl⟩
    refine (h hle).of_runAt_eq (fun d => ?_) ?_
    · rw [Checked.runAt_bind_of_ok _ (Checked.runAt_liftM_of_ok hskip d),
        Checked.runAt_bind_of_ok _ (Checked.runAt_liftM_of_ok hseek d)]
    · rw [Reader.runAt_bind_of_ok _ hskip, Reader.runAt_bind_of_ok _ hseek]
  · refine .bind (P := fun _ _ _ => False) ⟨fun _ _ _ hrun => ?_, fun hpos e stop hrun => ?_⟩
      fun _ _ _ h => h.elim
    · obtain ⟨_, hbytes, -⟩ := runAt_map_eq_ok.mp hrun
      exact absurd (runAt_bytes_eq_ok.mp hbytes).1 hle
    · exact ⟨0, hpos, Checked.runAt_liftM_of_error hrun⟩

end Checks

/-! ## Integers -/

/-- No more bytes are read than the width has groups of bits. -/
theorem Checks.unsignedFrom (bits : Nat) {left shift result : Nat}
    (h : shift + 7 * left < bits + 7) :
    Checks view pos (Leb128.unsignedFrom bits left shift result)
      (Leb128.unsignedFrom bits left shift result) fun _ n k => 0 < n ∧ k = 0 := by
  induction left generalizing pos shift result with
  | zero => exact .offset_bind (.fail _)
  | succ left ih =>
    -- A byte that may still come has bits left for it, so the difference is not below zero.
    refine (lift yields_u8).bind fun b n k hn => (subtract (by omega)).bind fun room l j hl => ?_
    refine .ite (fun _ => .offset_bind (.fail _)) fun _ => .ite (fun _ => ?_) fun _ =>
      .pure (by omega)
    exact (ih (by omega)).mono fun _ _ _ _ _ => by omega

/-- With a sign, one bit at least is left for the last byte. -/
theorem Checks.overflows (b : UInt8) (h : 0 < room) :
    Checks view pos (Leb128.overflows room b) (Leb128.overflows room b)
      fun _ n k => n = 0 ∧ k = 0 :=
  .ite (fun _ => (subtract h).map _ fun _ _ _ hk => hk.2) fun _ => .pure ⟨rfl, rfl⟩

/-- By induction on the groups that are left. The shift stays below the width, so that no bit is
shifted out of the number. -/
theorem Checks.signedFrom (bits : Nat) {left shift : Nat} {result : BitVec 64}
    (h : shift + 7 * left < bits + 7) :
    Checks view pos (Leb128.signedFrom bits left shift result)
      (Leb128.signedFrom bits left shift result) fun _ n k => 0 < n ∧ k = 0 := by
  induction left generalizing pos shift result with
  | zero => exact .offset_bind (.fail _)
  | succ left ih =>
    refine (lift yields_u8).bind fun b n k hn => (subtract (by omega)).bind fun room l j hl => ?_
    refine (overflows b (by omega)).bind fun full o i ho => ?_
    refine .ite (fun _ => .offset_bind (.fail _)) fun _ => .ite (fun _ => ?_) fun _ => ?_
    · exact (ih (by omega)).mono fun _ _ _ _ _ => by omega
    · exact .ite (fun _ => .pure (by omega)) fun _ => .pure (by omega)

theorem Checks.u32 : Checks view pos Reader.u32 Reader.u32 fun _ n k => 0 < n ∧ k = 0 :=
  (unsignedFrom 32 (by decide)).map _ fun _ _ _ h => h

/-- The loop has only so many groups that the shift stays small. -/
theorem Checks.signed (hbits : 7 * Leb128.limit bits < bits + 7) :
    Checks view pos (Leb128.signed bits) (Leb128.signed bits) fun _ n k => 0 < n ∧ k = 0 :=
  (signedFrom bits (by omega)).map _ fun _ _ _ h => h

theorem Checks.s32 : Checks view pos Reader.s32 Reader.s32 fun _ n k => 0 < n ∧ k = 0 :=
  (signed (by decide)).map _ fun _ _ _ h => h

theorem Checks.s64 : Checks view pos Reader.s64 Reader.s64 fun _ n k => 0 < n ∧ k = 0 :=
  (signed (by decide)).map _ fun _ _ _ h => h

/-! ## What a count or a length introduces -/

/-- The sum of the weights of some items. -/
def totalWeight (weight : α → Nat) (items : Array α) : Nat :=
  items.foldl (fun n a => n + weight a) 0

@[simp]
theorem totalWeight_empty (weight : α → Nat) : totalWeight weight #[] = 0 := rfl

/-- Another item adds its weight. -/
@[simp]
theorem totalWeight_push (weight : α → Nat) (items : Array α) (a : α) :
    totalWeight weight (items.push a) = totalWeight weight items + weight a := by
  simp [totalWeight]

/-- Items that count once are as many as there are. -/
@[simp]
theorem totalWeight_one (items : Array α) : totalWeight (fun _ => 1) items = items.size := by
  simp [totalWeight]

theorem size_le_of_totalWeight_le {items : Array α} (h : totalWeight (fun _ => 1) items ≤ k) :
    items.size ≤ k := by
  rwa [totalWeight_one] at h

namespace Checks

/-- Bytes that are read for themselves are an item each. -/
theorem bytes (n : Nat) : Checks view pos (Decoder.tally Array.size (Reader.bytes n : Checked _))
    (Decoder.tally Array.size (Reader.bytes n)) fun bs l k => bs.size = k ∧ k = l :=
  (lift (yields_bytes n)).tally fun bs l k h => by omega

/-- The length is checked against what is left before the bytes are taken. -/
theorem lengthPrefixed : Checks view pos Reader.lengthPrefixed Reader.lengthPrefixed
    fun bs n k => bs.size = k ∧ k < n := by
  refine u32.bind fun len n k hn => (bytes len.toNat).mono fun bs l j hl _ => ?_
  omega

/-- A name counts its bytes. -/
theorem name : Checks view pos Reader.name Reader.name fun s n k => s.utf8ByteSize = k ∧ k < n := by
  refine .offset_bind (lengthPrefixed.bind fun text n k hn => ?_)
  cases hs : String.fromUTF8? ⟨text⟩ with
  | none => exact .fail _
  | some s =>
    have hsize : s.utf8ByteSize = text.size := by
      rw [← String.size_toByteArray]
      exact congrArg ByteArray.size (toUTF8_of_fromUTF8? hs)
    exact .pure (by omega)

/-- What is used as an item of a vector: it takes a byte more than it counts items, and with that
byte it may count as `weight` items. -/
def Item (bytes : Array UInt8) (c : Checked α) (r : Reader α) (weight : α → Nat) : Prop :=
  ∀ left pos, Checks ⟨bytes, left⟩ pos c r fun a n k => weight a ≤ k + 1 ∧ k < n

variable {bytes : Array UInt8} {c : Checked α} {r : Reader α} {weight : α → Nat}

/-- What takes a byte and counts nothing may count as one item. -/
theorem Item.one (h : ∀ left pos, Checks ⟨bytes, left⟩ pos c r fun _ n k => 0 < n ∧ k = 0) :
    Item bytes c r fun _ => 1 := by
  refine fun left pos => (h left pos).mono fun a n k hn _ => ?_
  dsimp only
  omega

/-- An item takes a byte, so its number is no larger than the number of bytes that were left. -/
theorem item (h : Item bytes c r weight) (hnumber : pos < bytes.size → number ≤ left) :
    Checks ⟨bytes, left⟩ pos (Decoder.item number c) (Decoder.item number r)
      fun a n k => weight a ≤ k ∧ 0 < n ∧ pos + n ≤ bytes.size := by
  have htally : Checks ⟨bytes, left⟩ pos (Decoder.tally (fun _ => 1) c) r
      fun a n k => weight a ≤ k ∧ 0 < n :=
    (h left pos).tally fun a n k hn => by omega
  refine ⟨fun hpos a stop hrun => ?_, fun hpos e stop hrun => ?_⟩
  · obtain ⟨n, k, rfl, hstop, hk, ⟨hweight, hn⟩, hrunc⟩ := htally.ok hpos a stop hrun
    refine ⟨n, k, rfl, hstop, hk, ⟨hweight, hn, hstop⟩, fun d => ?_⟩
    dsimp only at hstop
    refine (Checked.runAt_bind_of_ok _ (hrunc d)).trans ?_
    refine (Checked.runAt_bind_of_ok _ (a := (⟨bytes, left⟩ : Checked.View)) rfl).trans ?_
    rw [if_neg (Nat.not_lt.mpr (hnumber (by omega)))]
    rfl
  · obtain ⟨k, hk, hrunc⟩ := htally.error hpos e stop hrun
    exact ⟨k, hk, fun d => Checked.runAt_bind_of_error _ (hrunc d)⟩

/-- With each item there are fewer bytes left, so there are no more items than bytes at first. -/
theorem repeated (h : Item bytes c r weight) {items : Array α}
    (hleft : items.size + (bytes.size - pos) ≤ left) :
    Checks ⟨bytes, left⟩ pos (Reader.repeated c n items) (Reader.repeated r n items)
      fun all _ k => totalWeight weight all ≤ totalWeight weight items + k := by
  induction n generalizing pos items with
  | zero => exact .pure (Nat.le_refl _)
  | succ n ih =>
    refine (item h (by omega)).bind fun a l k ha => ?_
    have hpush : (items.push a).size + (bytes.size - (pos + l)) ≤ left := by
      rw [Array.size_push]
      omega
    refine (ih hpush).mono fun all _ j hall _ => ?_
    rw [totalWeight_push] at hall
    omega

/-- A vector counts all that its items count, and there is a byte more for the number of items. -/
theorem vec (h : Item bytes c r weight) :
    Checks ⟨bytes, left⟩ pos (Reader.vec c) (Reader.vec r)
      fun items n k => totalWeight weight items ≤ k ∧ k < n := by
  refine vector (u32.bind fun count n k hn => ?_)
  have hleft : (#[] : Array α).size + (bytes.size - (pos + n)) ≤ bytes.size - pos := by
    rw [Array.size_empty]
    omega
  refine (repeated h hleft).mono fun items l j hitems hj => ?_
  rw [totalWeight_empty] at hitems
  omega

-- Items that take no bytes are what a count could have any number of.
example : Checked.runAt (Reader.vec (Pure.pure ())) ⟨#[2], 0⟩ ⟨0, 0⟩ =
    .error (.fault (.crowded 2 1)) ⟨1, 2⟩ := rfl

end Checks

end Wasm
