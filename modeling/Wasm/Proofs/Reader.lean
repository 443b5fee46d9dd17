import Wasm.Reader.Compound

/-!
# Wasm.Proofs.Reader

What readers read, said without positions.

* `StandsAt data pos bs`: the bytes `bs` stand in `data` from `pos` on.
* `Reads r bs a`: wherever `bs` stand, `r` reads `a` from them and stops behind them.
* `Local r`: a successful read is a `Reads` of the bytes it passed over, so nothing before or
  after them has a say in it.

`Reads` and `Local` are closed under sequencing, so that the laws of a compound reader follow its
definition.
-/

namespace Wasm

/-! ## Bytes at a position -/

/-- The bytes `bs` stand in `data` from `pos` on. -/
def StandsAt (data : Array UInt8) (pos : Nat) (bs : List UInt8) : Prop :=
  ∃ pre post : List UInt8, data.toList = pre ++ (bs ++ post) ∧ pre.length = pos

namespace StandsAt

/-- All bytes stand at the beginning. -/
theorem of_toList (data : Array UInt8) : StandsAt data 0 data.toList :=
  ⟨[], [], by simp, rfl⟩

/-- Bytes that stand somewhere are inside the data. -/
theorem le_size (h : StandsAt data pos bs) : pos + bs.length ≤ data.size := by
  obtain ⟨pre, post, hdata, hpos⟩ := h
  rw [← Array.length_toList, hdata, ← hpos]
  simp only [List.length_append]
  omega

theorem getElem? (h : StandsAt data pos (b :: bs)) : data[pos]? = some b := by
  obtain ⟨pre, post, hdata, hpos⟩ := h
  rw [← Array.getElem?_toList, hdata, ← hpos]
  simp

/-- Of bytes in a row, the first ones stand at the same place. -/
theorem left (h : StandsAt data pos (bs ++ cs)) : StandsAt data pos bs := by
  obtain ⟨pre, post, hdata, hpos⟩ := h
  exact ⟨pre, cs ++ post, by rw [hdata, List.append_assoc], hpos⟩

/-- The others stand behind them. -/
theorem right (h : StandsAt data pos (bs ++ cs)) : StandsAt data (pos + bs.length) cs := by
  obtain ⟨pre, post, hdata, hpos⟩ := h
  refine ⟨pre ++ bs, post, ?_, by rw [List.length_append, hpos]⟩
  rw [hdata, List.append_assoc, List.append_assoc]

theorem head (h : StandsAt data pos (b :: bs)) : StandsAt data pos [b] := by
  rw [← List.singleton_append] at h
  exact h.left

theorem tail (h : StandsAt data pos (b :: bs)) : StandsAt data (pos + 1) bs := by
  rw [← List.singleton_append] at h
  exact h.right

/-- Bytes that stand behind each other stand in a row. -/
theorem append (hbs : StandsAt data pos bs) (hcs : StandsAt data (pos + bs.length) cs) :
    StandsAt data pos (bs ++ cs) := by
  obtain ⟨pre, post, hdata, hpos⟩ := hbs
  obtain ⟨pre', post', hdata', hpos'⟩ := hcs
  have heq : (pre ++ bs) ++ post = pre' ++ (cs ++ post') := by
    rw [← hdata', hdata, List.append_assoc]
  have hlen : (pre ++ bs).length = pre'.length := by
    rw [hpos', List.length_append, hpos]
  obtain ⟨-, hpost⟩ := List.append_inj heq hlen
  exact ⟨pre, post', by rw [hdata, hpost, List.append_assoc], hpos⟩

/-- At one position stand only bytes of which one is a part of the other. -/
theorem eq_append_of_length_le (hbs : StandsAt data pos bs) (hcs : StandsAt data pos cs)
    (hle : bs.length ≤ cs.length) : ∃ rest, cs = bs ++ rest := by
  obtain ⟨pre, post, hdata, hpos⟩ := hbs
  obtain ⟨pre', post', hdata', hpos'⟩ := hcs
  have heq : pre ++ (bs ++ post) = pre' ++ (cs ++ post') := by rw [← hdata, hdata']
  obtain ⟨-, heq⟩ := List.append_inj heq (by rw [hpos, hpos'])
  have hprefix : bs <+: cs := List.prefix_of_prefix_length_le ⟨post, rfl⟩ ⟨post', heq.symm⟩ hle
  obtain ⟨rest, hrest⟩ := hprefix
  exact ⟨rest, hrest.symm⟩

/-- At one place stand no two rows of bytes of one length. -/
theorem eq_of_length_eq (hbs : StandsAt data pos bs) (hcs : StandsAt data pos cs)
    (hlen : bs.length = cs.length) : bs = cs := by
  obtain ⟨rest, rfl⟩ := eq_append_of_length_le hbs hcs (Nat.le_of_eq hlen)
  have hrest : rest = [] := by simpa using hlen
  rw [hrest, List.append_nil]

/-- Bytes that fill the data from the start are the data. -/
theorem toList_eq (h : StandsAt data 0 bs) (hlen : bs.length = data.size) : data.toList = bs :=
  ((of_toList data).eq_of_length_eq h (by rw [hlen, Array.length_toList]))

theorem extract_eq (h : StandsAt data pos bs) :
    data.extract pos (pos + bs.length) = bs.toArray := by
  obtain ⟨pre, post, hdata, hpos⟩ := h
  apply Array.toList_inj.mp
  rw [Array.toList_extract, hdata, ← hpos]
  simp [List.extract_eq_take_drop]

/-- Cutting the data off behind the bytes leaves them where they stand. -/
theorem extract (h : StandsAt data pos bs) (hstop : pos + bs.length ≤ stop) :
    StandsAt (data.extract 0 stop) pos bs := by
  obtain ⟨pre, post, hdata, rfl⟩ := h
  refine ⟨pre, post.take (stop - pre.length - bs.length), ?_, rfl⟩
  rw [Array.toList_extract, hdata, List.extract_eq_take_drop, List.drop_zero, Nat.sub_zero,
    List.take_append, List.take_of_length_le (by omega), List.take_append,
    List.take_of_length_le (by omega)]

end StandsAt

/-- Within the data, some bytes stand at every position. -/
theorem exists_standsAt {data : Array UInt8} (h : pos + n ≤ data.size) :
    ∃ bs, bs.length = n ∧ StandsAt data pos bs := by
  rw [← Array.length_toList] at h
  refine ⟨(data.toList.drop pos).take n, ?_, data.toList.take pos, (data.toList.drop pos).drop n,
    ?_, ?_⟩
  · rw [List.length_take, List.length_drop]
    omega
  · rw [List.take_append_drop, List.take_append_drop]
  · rw [List.length_take]
    omega

namespace Reader

/-! ## Decoders as readers -/

/-- Readers run in themselves. -/
@[simp]
theorem liftM_self (r : Reader α) : (liftM r : Reader α) = r := rfl

@[simp]
theorem subtract_eq (a b : Nat) : (Decoder.subtract a b : Reader Nat) = pure (a - b) := rfl

@[simp]
theorem decoderWithin_eq (stop : Nat) (r : Reader α) : Decoder.within stop r = within stop r := rfl

@[simp]
theorem finished_eq : (Decoder.finished : Reader Unit) = pure () := rfl

/-! ## Running composed readers -/

@[simp]
theorem runAt_pure (a : α) (data : Array UInt8) (pos : Nat) :
    (pure a : Reader α).runAt data pos = .ok a pos := rfl

@[simp]
theorem runAt_offset (data : Array UInt8) (pos : Nat) :
    offset.runAt data pos = .ok pos pos := rfl

@[simp]
theorem runAt_fail (e : ReadError) (data : Array UInt8) (pos : Nat) :
    (fail e : Reader α).runAt data pos = .error e pos := rfl

/-- A sequence goes on where its first part has stopped, or ends with it. -/
theorem runAt_bind (r : Reader α) (f : α → Reader β) (data : Array UInt8) (pos : Nat) :
    (r >>= f).runAt data pos = (match r.runAt data pos with
      | .ok a next => (f a).runAt data next
      | .error e next => .error e next) := by
  simp only [runAt, Bind.bind, ReaderT.bind, EStateM.bind]
  cases r data pos <;> rfl

/-- A sequence of two readers succeeds when both do, the second where the first stopped. -/
theorem runAt_bind_eq_ok {r : Reader α} {f : α → Reader β} :
    (r >>= f).runAt data pos = .ok b stop ↔
      ∃ a next, r.runAt data pos = .ok a next ∧ (f a).runAt data next = .ok b stop := by
  rw [runAt_bind]
  cases h : r.runAt data pos with
  | ok a next =>
    constructor
    · intro hb
      exact ⟨a, next, rfl, hb⟩
    · intro hex
      obtain ⟨a', next', ha, hb⟩ := hex
      injection ha with ha hnext
      rw [ha, hnext]
      exact hb
  | error e next => simp

/-- The first reader of a sequence can be run ahead. -/
theorem runAt_bind_of_ok {r : Reader α} (f : α → Reader β)
    (h : r.runAt data pos = .ok a next) :
    (r >>= f).runAt data pos = (f a).runAt data next := by
  rw [runAt_bind, h]

/-- A last step that takes no bytes stops where the reader before it has stopped. -/
theorem runAt_map_eq_ok {r : Reader α} {f : α → β} :
    (do return f (← r)).runAt data pos = .ok b stop ↔
      ∃ a, r.runAt data pos = .ok a stop ∧ b = f a := by
  rw [runAt_bind_eq_ok]
  constructor
  · intro h
    obtain ⟨a, next, ha, hb⟩ := h
    rw [runAt_pure] at hb
    injection hb with hb hnext
    exact ⟨a, hnext ▸ ha, hb.symm⟩
  · intro h
    obtain ⟨a, ha, rfl⟩ := h
    exact ⟨a, stop, ha, runAt_pure _ _ _⟩

/-- A last step that changes nothing that can come may be left out. -/
theorem map_eq_self {r : Reader α} {f : α → α}
    (h : ∀ data pos a stop, r.runAt data pos = .ok a stop → f a = a) : (do return f (← r)) = r := by
  funext data pos
  refine (runAt_bind r (fun a => pure (f a)) data pos).trans ?_
  cases hr : r.runAt data pos with
  | ok a stop =>
    dsimp only
    rw [runAt_pure, h data pos a stop hr]
    exact hr.symm
  | error e stop => exact hr.symm

/-- Parsing is running from the beginning; what is left over does not matter. -/
theorem parse_eq_ok {r : Reader α} {data : Array UInt8} :
    r.parse data = .ok a ↔ ∃ stop, r.runAt data 0 = .ok a stop := by
  unfold parse
  cases r.runAt data 0 with
  | ok b stop => simp
  | error e stop => simp

/-! ## Reading given bytes -/

/-- `r` reads `a` from `bs`, wherever these bytes stand. -/
def Reads (r : Reader α) (bs : List UInt8) (a : α) : Prop :=
  ∀ data pos, StandsAt data pos bs → r.runAt data pos = .ok a (pos + bs.length)

namespace Reads

theorem pure (a : α) : Reads (Pure.pure a) [] a :=
  fun data pos _ => runAt_pure a data pos

/-- Bytes in a row are read one after the other. -/
theorem bind {r : Reader α} {f : α → Reader β} (hr : Reads r bs a) (hf : Reads (f a) cs b) :
    Reads (r >>= f) (bs ++ cs) b := by
  intro data pos h
  rw [runAt_bind_of_ok f (hr data pos h.left), hf data _ h.right, List.length_append,
    Nat.add_assoc]

/-- A last step that takes no bytes. -/
theorem map {r : Reader α} (hr : Reads r bs a) (f : α → β) :
    Reads (do return f (← r)) bs (f a) := by
  have h : Reads (r >>= fun a => Pure.pure (f a)) (bs ++ []) (f a) := hr.bind (pure (f a))
  rwa [List.append_nil] at h

/-- A reader that only uses the position for its errors. -/
theorem offset_bind {f : Nat → Reader α} (h : ∀ pos, Reads (f pos) bs a) :
    Reads (offset >>= f) bs a := by
  intro data pos hbs
  rw [runAt_bind_of_ok f (runAt_offset data pos)]
  exact h pos data pos hbs

/-- Of bytes that stand at one position, a reader reads the same ones. -/
theorem unique {r : Reader α} (h : Reads r bs a) (h' : Reads r bs' a')
    (hbs : StandsAt data pos bs) (hbs' : StandsAt data pos bs') : bs = bs' ∧ a = a' := by
  have heq := h data pos hbs
  rw [h' data pos hbs'] at heq
  injection heq with ha hlen
  exact ⟨hbs.eq_of_length_eq hbs' (by omega), ha.symm⟩

end Reads

/-! ## Local readers -/

/-- Success depends on the bytes passed over alone. -/
def Local (r : Reader α) : Prop :=
  ∀ data pos a stop, pos ≤ data.size → r.runAt data pos = .ok a stop →
    ∃ bs, StandsAt data pos bs ∧ stop = pos + bs.length ∧ Reads r bs a

namespace Local

/-- With a local reader, one successful read is enough to know what it reads. -/
theorem reads {r : Reader α} (hr : Local r) (hbs : StandsAt data pos bs)
    (h : r.runAt data pos = .ok a (pos + bs.length)) : Reads r bs a := by
  have hpos : pos ≤ data.size := Nat.le_trans (Nat.le_add_right _ _) hbs.le_size
  obtain ⟨bs', hbs', hstop, hreads⟩ := hr data pos a _ hpos h
  rwa [hbs.eq_of_length_eq hbs' (by omega)]

theorem pure (a : α) : Local (Pure.pure a) := by
  intro data pos b stop hpos h
  rw [runAt_pure] at h
  injection h with hb hstop
  subst hb hstop
  obtain ⟨bs, hlen, hbs⟩ := exists_standsAt (n := 0) hpos
  rw [List.length_eq_zero_iff] at hlen
  subst hlen
  exact ⟨[], hbs, rfl, Reads.pure _⟩

/-- Local readers in sequence read what stands from the first position on. -/
theorem bind {r : Reader α} {f : α → Reader β} (hr : Local r) (hf : ∀ a, Local (f a)) :
    Local (r >>= f) := by
  intro data pos b stop hpos h
  obtain ⟨a, next, ha, hb⟩ := runAt_bind_eq_ok.mp h
  obtain ⟨bs, hbs, rfl, hreads⟩ := hr data pos a next hpos ha
  obtain ⟨cs, hcs, rfl, hreads'⟩ := hf a data _ b stop hbs.le_size hb
  refine ⟨bs ++ cs, hbs.append hcs, ?_, hreads.bind hreads'⟩
  rw [List.length_append, Nat.add_assoc]

theorem map {r : Reader α} (hr : Local r) (f : α → β) : Local (do return f (← r)) :=
  hr.bind fun a => pure (f a)

/-- A choice between local readers is one if it is not made by looking at other bytes. -/
theorem ite {p : Prop} [Decidable p] {r r' : Reader α} (hr : Local r) (hr' : Local r') :
    Local (if p then r else r') := by
  by_cases hp : p
  · rwa [if_pos hp]
  · rwa [if_neg hp]

end Local

/-- What a sequence of local readers reads falls into what the two of them read. -/
theorem reads_bind_iff {r : Reader α} {f : α → Reader β} (hr : Local r) (hf : ∀ a, Local (f a)) :
    Reads (r >>= f) ds b ↔ ∃ bs cs a, ds = bs ++ cs ∧ Reads r bs a ∧ Reads (f a) cs b := by
  constructor
  · intro h
    have hds : StandsAt ds.toArray 0 ds := StandsAt.of_toList ds.toArray
    obtain ⟨a, next, ha, hb⟩ := runAt_bind_eq_ok.mp (h ds.toArray 0 hds)
    obtain ⟨bs, hbs, rfl, hreads⟩ := hr ds.toArray 0 a next (Nat.zero_le _) ha
    have hle : bs.length ≤ ds.length := by simpa using hbs.le_size
    obtain ⟨cs, rfl⟩ := hbs.eq_append_of_length_le hds hle
    rw [List.length_append, ← Nat.add_assoc] at hb
    exact ⟨bs, cs, a, rfl, hreads, (hf a).reads hds.right hb⟩
  · intro h
    obtain ⟨bs, cs, a, rfl, hbs, hcs⟩ := h
    exact hbs.bind hcs

/-- Nothing is read from no bytes alone. -/
theorem reads_pure_iff : Reads (pure a) bs b ↔ bs = [] ∧ b = a := by
  constructor
  · intro h
    have hrun := h bs.toArray 0 (StandsAt.of_toList bs.toArray)
    rw [runAt_pure] at hrun
    injection hrun with hb hlen
    have hnil : bs.length = 0 := by simpa using hlen.symm
    exact ⟨List.length_eq_zero_iff.mp hnil, hb.symm⟩
  · intro h
    rw [h.1, h.2]
    exact Reads.pure a

/-- What is read before a last step that takes no bytes. -/
theorem reads_map_iff {r : Reader α} (hr : Local r) (f : α → β) :
    Reads (do return f (← r)) bs b ↔ ∃ a, Reads r bs a ∧ b = f a := by
  rw [reads_bind_iff hr fun a => Local.pure (f a)]
  simp only [reads_pure_iff]
  constructor
  · intro h
    obtain ⟨bs', cs, a, rfl, ha, rfl, rfl⟩ := h
    rw [List.append_nil]
    exact ⟨a, ha, rfl⟩
  · intro h
    obtain ⟨a, ha, rfl⟩ := h
    exact ⟨bs, [], a, (List.append_nil bs).symm, ha, rfl, rfl⟩

/-! ## Primitive readers -/

theorem runAt_u8_of_some {data : Array UInt8} (h : data[pos]? = some b) :
    u8.runAt data pos = .ok b (pos + 1) := by
  simp only [runAt, u8, h]

theorem Reads.u8 (b : UInt8) : Reads u8 [b] b :=
  fun _ _ h => runAt_u8_of_some h.getElem?

theorem Reads.u8_bind {f : UInt8 → Reader α} (h : Reads (f b) bs a) :
    Reads (Reader.u8 >>= f) (b :: bs) a :=
  (Reads.u8 b).bind h

theorem Local.u8 : Local u8 := by
  intro data pos b stop hpos h
  simp only [Reader.runAt, Reader.u8] at h
  cases hb : data[pos]? with
  | none =>
    rw [hb] at h
    contradiction
  | some c =>
    rw [hb] at h
    injection h with hc hstop
    subst hc hstop
    have hlt : pos < data.size := by
      rw [Array.getElem?_eq_some_iff] at hb
      exact hb.1
    obtain ⟨bs, hlen, hbs⟩ := exists_standsAt (n := 1) hlt
    obtain ⟨c', rfl⟩ := List.length_eq_one_iff.mp hlen
    have hc := hbs.getElem?
    rw [hb] at hc
    injection hc with hc
    subst hc
    exact ⟨[c], hbs, rfl, Reads.u8 c⟩

/-- A byte is read from itself alone. -/
theorem reads_u8_iff : Reads u8 bs b ↔ bs = [b] := by
  constructor
  · intro h
    have hbs : StandsAt bs.toArray 0 bs := StandsAt.of_toList bs.toArray
    cases bs with
    | nil =>
      have hrun := h _ _ hbs
      simp [Reader.u8, Reader.runAt] at hrun
    | cons c cs =>
      obtain ⟨heq, hb⟩ := h.unique (Reads.u8 c) hbs hbs.head
      rw [heq, hb]
  · intro h
    rw [h]
    exact Reads.u8 b

/-- Bytes are read if there are as many left. -/
theorem runAt_bytes_eq_ok :
    (bytes n).runAt data pos = .ok cs stop ↔
      pos + n ≤ data.size ∧ cs = data.extract pos (pos + n) ∧ stop = pos + n := by
  simp only [runAt, bytes]
  by_cases hle : pos + n ≤ data.size
  · rw [if_pos hle, EStateM.Result.ok.injEq]
    simp only [hle, true_and, eq_comm]
  · rw [if_neg hle]
    constructor
    · intro h
      split at h <;> contradiction
    · intro h
      exact absurd h.1 hle

/-- Any bytes are read as themselves. -/
theorem Reads.bytes (bs : List UInt8) : Reads (bytes bs.length) bs bs.toArray := by
  intro data pos h
  exact runAt_bytes_eq_ok.mpr ⟨h.le_size, h.extract_eq.symm, rfl⟩

theorem Local.bytes (n : Nat) : Local (bytes n) := by
  intro data pos a stop hpos h
  obtain ⟨hle, rfl, rfl⟩ := runAt_bytes_eq_ok.mp h
  obtain ⟨bs, rfl, hbs⟩ := exists_standsAt hle
  rw [hbs.extract_eq]
  exact ⟨bs, hbs, rfl, Reads.bytes bs⟩

/-- Whatever the bytes are, they can be skipped. -/
theorem Reads.skip {bs : List UInt8} (h : bs.length = n) : Reads (Reader.skip n) bs () := by
  subst h
  exact (Reads.bytes bs).map fun _ => ()

theorem Local.skip (n : Nat) : Local (Reader.skip n) :=
  (Local.bytes n).map fun _ => ()

/-- A length that is passed over is the length asked for. -/
theorem Reads.length_of_skip (h : Reads (Reader.skip n) bs ()) : bs.length = n := by
  obtain ⟨a, ha, -⟩ := (reads_map_iff (Local.bytes n) fun _ => ()).mp h
  have hrun := ha bs.toArray 0 (StandsAt.of_toList bs.toArray)
  obtain ⟨-, -, hstop⟩ := runAt_bytes_eq_ok.mp hrun
  exact Nat.add_left_cancel hstop

/-- A position is gone to if it is not past the end. -/
theorem runAt_seek_eq_ok :
    (seek target).runAt data pos = .ok () stop ↔ target ≤ data.size ∧ stop = target := by
  simp only [runAt, seek]
  by_cases hlt : data.size < target
  · rw [if_pos hlt]
    constructor
    · intro h
      contradiction
    · intro h
      exact absurd hlt (Nat.not_lt.mpr h.1)
  · rw [if_neg hlt, EStateM.Result.ok.injEq]
    simp only [Nat.not_lt.mp hlt, true_and, eq_comm]

/-- Passing over bytes and going back asks that the bytes are there, and nothing else. -/
theorem runAt_skip_seek_eq_ok {r : Reader α} :
    (do skip n; seek pos; r : Reader α).runAt data pos = .ok a stop ↔
      pos + n ≤ data.size ∧ r.runAt data pos = .ok a stop := by
  constructor
  · intro h
    obtain ⟨_, next, hskip, hrest⟩ := runAt_bind_eq_ok.mp h
    obtain ⟨_, _, hbytes, -⟩ := runAt_bind_eq_ok.mp hskip
    obtain ⟨_, back, hseek, hr⟩ := runAt_bind_eq_ok.mp hrest
    obtain ⟨-, rfl⟩ := runAt_seek_eq_ok.mp hseek
    exact ⟨(runAt_bytes_eq_ok.mp hbytes).1, hr⟩
  · intro h
    obtain ⟨hle, h⟩ := h
    have hbytes := runAt_bytes_eq_ok.mpr ⟨hle, rfl, rfl⟩
    have hseek : (seek pos).runAt data (pos + n) = .ok () pos :=
      runAt_seek_eq_ok.mpr ⟨Nat.le_trans (Nat.le_add_right pos n) hle, rfl⟩
    rw [skip, bind_assoc, runAt_bind_of_ok _ hbytes, pure_bind, runAt_bind_of_ok _ hseek]
    exact h

/-- What a reader reads exactly, its bytes given alone. -/
theorem Local.reads_toList_iff {r : Reader α} (hr : Local r) {data : Array UInt8} :
    Reads r data.toList a ↔ r.runAt data 0 = .ok a data.size := by
  have hdata := StandsAt.of_toList data
  have hlen : 0 + data.toList.length = data.size := Nat.zero_add _
  constructor
  · intro h
    rw [h data 0 hdata, hlen]
  · intro h
    rw [← hlen] at h
    exact hr.reads hdata h

/-- What a reader takes is kept as it stands. -/
theorem Reads.captured {r : Reader α} (h : Reads r bs a) :
    Reads (Reader.captured r) bs bs.toArray := by
  intro data pos hbs
  have hrun : r data pos = .ok a (pos + bs.length) := h data pos hbs
  simp only [Reader.runAt, Reader.captured, hrun, hbs.extract_eq]

/-- Captured bytes are the ones that were read. -/
theorem Local.captured {r : Reader α} (hr : Local r)
    (h : (Reader.captured r).runAt data pos = .ok cs stop) (hpos : pos ≤ data.size) :
    ∃ a, StandsAt data pos cs.toList ∧ stop = pos + cs.size ∧ Reads r cs.toList a := by
  simp only [Reader.runAt, Reader.captured] at h
  cases hrun : r data pos with
  | error e next =>
    rw [hrun] at h
    contradiction
  | ok a next =>
    rw [hrun] at h
    injection h with hcs hstop
    subst hstop
    obtain ⟨bs, hbs, rfl, hreads⟩ := hr data pos a next hpos hrun
    rw [hbs.extract_eq] at hcs
    subst hcs
    exact ⟨a, hbs, rfl, hreads⟩

theorem Local.littleEndian (n : Nat) : Local (littleEndian n) :=
  (Local.bytes n).map fun bs => leNat bs.toList

theorem local_u32le : Local u32le :=
  (Local.littleEndian 4).map UInt32.ofNat

theorem local_u64le : Local u64le :=
  (Local.littleEndian 8).map UInt64.ofNat

/-- The first byte is the least significant one. -/
theorem Reads.littleEndian {bs : List UInt8} (h : bs.length = n) :
    Reads (littleEndian n) bs (leNat bs) := by
  subst h
  exact (Reads.bytes bs).map fun bs => leNat bs.toList

end Reader

end Wasm
