import Wasm.Proofs.Leb128

/-!
# Wasm.Proofs.Acceptance

Which bytes a reader accepts, wherever it starts.

* `ahead data pos`: the bytes from a position on, all that a reader gets to see.
* `Accepts r P`: the reader `r` reads what `P` says, from the first of these bytes.

Unlike `Reads` and `Local`, which speak of bytes that stand in the data, `Accepts` holds of
positions past the end too, and says what a reader does not read. It is closed under sequencing all
the same.
-/

namespace Wasm

/-! ## The bytes ahead -/

/-- The bytes from a position on. -/
def ahead (data : Array UInt8) (pos : Nat) : List UInt8 :=
  data.toList.drop pos

/-- A byte at a position is the first of those that lie ahead. -/
theorem getElem?_eq_head?_ahead (data : Array UInt8) (pos : Nat) :
    data[pos]? = (ahead data pos).head? := by
  rw [ahead, List.head?_drop, Array.getElem?_toList]

/-- Past some bytes, the others lie ahead. -/
theorem ahead_add {data : Array UInt8} (h : ahead data pos = bs ++ rest) :
    ahead data (pos + bs.length) = rest := by
  have hdrop : ahead data (pos + bs.length) = (ahead data pos).drop bs.length :=
    List.drop_drop.symm
  rw [hdrop, h, List.drop_left]

theorem ahead_succ {data : Array UInt8} (h : ahead data pos = b :: rest) :
    ahead data (pos + 1) = rest := by
  have hone : ahead data pos = [b] ++ rest := h
  exact ahead_add hone

theorem le_size_of_ahead {data : Array UInt8} (h : ahead data pos ≠ []) : pos ≤ data.size := by
  refine Nat.le_of_not_lt fun hlt => h (List.drop_eq_nil_of_le ?_)
  rw [Array.length_toList]
  exact Nat.le_of_lt hlt

/-- Bytes that come first ahead stand there. -/
theorem standsAt_of_ahead {data : Array UInt8} (hpos : pos ≤ data.size)
    (h : ahead data pos = bs ++ rest) : StandsAt data pos bs := by
  refine ⟨data.toList.take pos, rest, ?_, ?_⟩
  · rw [← h, ahead, List.take_append_drop]
  · rw [List.length_take, Array.length_toList, Nat.min_eq_left hpos]

theorem StandsAt.exists_ahead (h : StandsAt data pos bs) : ∃ rest, ahead data pos = bs ++ rest := by
  obtain ⟨pre, post, hdata, rfl⟩ := h
  exact ⟨post, by rw [ahead, hdata, List.drop_left]⟩

namespace Reader

/-- `r` reads `a` from the first of the bytes ahead exactly if `P` holds of them. -/
def Accepts (r : Reader α) (P : List UInt8 → α → Prop) : Prop :=
  ∀ data pos a stop, r.runAt data pos = .ok a stop ↔
    ∃ bs rest, ahead data pos = bs ++ rest ∧ stop = pos + bs.length ∧ P bs a

/-- A local reader that needs a byte reads the first of the bytes ahead. -/
theorem Local.accepts {r : Reader α} (hr : Local r)
    (hnil : ∀ data pos a stop, ahead data pos = [] → r.runAt data pos ≠ .ok a stop)
    (hP : ∀ bs a, Reads r bs a ↔ P bs a) : Accepts r P := by
  intro data pos a stop
  constructor
  · intro hrun
    have hpos : pos ≤ data.size := le_size_of_ahead fun h => hnil data pos a stop h hrun
    obtain ⟨bs, hbs, rfl, hreads⟩ := hr data pos a stop hpos hrun
    obtain ⟨rest, hrest⟩ := hbs.exists_ahead
    exact ⟨bs, rest, hrest, rfl, (hP bs a).mp hreads⟩
  · rintro ⟨bs, rest, hahead, rfl, hbs⟩
    have hreads : Reads r bs a := (hP bs a).mpr hbs
    have hne : bs ≠ [] := by
      rintro rfl
      exact hnil #[] 0 a _ rfl (hreads #[] 0 (StandsAt.of_toList #[]))
    have hpos : pos ≤ data.size := le_size_of_ahead (by simp [hahead, hne])
    exact hreads data pos (standsAt_of_ahead hpos hahead)

/-- A last step that takes no bytes. -/
theorem Accepts.map {r : Reader α} {Q : List UInt8 → β → Prop} (h : Accepts r P) {f : α → β}
    (hQ : ∀ bs b, Q bs b ↔ ∃ a, P bs a ∧ b = f a) : Accepts (do return f (← r)) Q := by
  intro data pos b stop
  rw [runAt_map_eq_ok]
  constructor
  · rintro ⟨a, hrun, rfl⟩
    obtain ⟨bs, rest, hahead, hstop, ha⟩ := (h data pos a stop).mp hrun
    exact ⟨bs, rest, hahead, hstop, (hQ bs (f a)).mpr ⟨a, ha, rfl⟩⟩
  · rintro ⟨bs, rest, hahead, hstop, hb⟩
    obtain ⟨a, ha, rfl⟩ := (hQ bs b).mp hb
    exact ⟨a, (h data pos a stop).mpr ⟨bs, rest, hahead, hstop, ha⟩, rfl⟩

/-- Nothing behind what was read has a say in it. -/
theorem Accepts.unread {r : Reader α} (h : Accepts r P)
    (hrun : r.runAt data pos = .ok a (pos + k))
    (htake : (ahead data' pos').take k = (ahead data pos).take k) :
    r.runAt data' pos' = .ok a (pos' + k) := by
  obtain ⟨bs, rest, hahead, hk, hbs⟩ := (h data pos a _).mp hrun
  obtain rfl : k = bs.length := Nat.add_left_cancel hk
  have hahead' := List.take_append_drop bs.length (ahead data' pos')
  rw [htake, hahead, List.take_left] at hahead'
  exact (h data' pos' a _).mpr ⟨bs, _, hahead'.symm, rfl, hbs⟩

/-! ## Composed readers -/

namespace Accepts

theorem pure (a : α) : Accepts (Pure.pure a) fun bs b => bs = [] ∧ b = a := by
  intro data pos b stop
  rw [runAt_pure, EStateM.Result.ok.injEq]
  constructor
  · rintro ⟨rfl, rfl⟩
    exact ⟨[], ahead data pos, rfl, rfl, rfl, rfl⟩
  · rintro ⟨_, _, -, rfl, rfl, rfl⟩
    exact ⟨rfl, rfl⟩

theorem fail (e : ReadError) : Accepts (Reader.fail e : Reader α) fun _ _ => False := by
  intro data pos a stop
  simp

theorem congr {r : Reader α} (h : Accepts r P) (hPQ : ∀ bs a, P bs a ↔ Q bs a) : Accepts r Q := by
  intro data pos a stop
  rw [h data pos a stop]
  simp only [hPQ]

/-- A sequence accepts two parts in a row. -/
theorem bind {r : Reader α} {f : α → Reader β} {Q : α → List UInt8 → β → Prop} (hr : Accepts r P)
    (hf : ∀ a, Accepts (f a) (Q a)) :
    Accepts (r >>= f) fun ds b => ∃ bs cs a, ds = bs ++ cs ∧ P bs a ∧ Q a cs b := by
  intro data pos b stop
  rw [runAt_bind_eq_ok]
  constructor
  · rintro ⟨a, next, ha, hb⟩
    obtain ⟨bs, rest, hbs, rfl, hP⟩ := (hr data pos a next).mp ha
    obtain ⟨cs, rest', hcs, rfl, hQ⟩ := (hf a data _ b stop).mp hb
    obtain rfl : rest = cs ++ rest' := (ahead_add hbs).symm.trans hcs
    exact ⟨bs ++ cs, rest', by rw [hbs, List.append_assoc],
      by rw [List.length_append, Nat.add_assoc], bs, cs, a, rfl, hP, hQ⟩
  · rintro ⟨_, rest, hahead, rfl, bs, cs, a, rfl, hP, hQ⟩
    rw [List.append_assoc] at hahead
    refine ⟨a, pos + bs.length, (hr data pos a _).mpr ⟨bs, cs ++ rest, hahead, rfl, hP⟩, ?_⟩
    refine (hf a data _ b _).mpr ⟨cs, rest, ahead_add hahead, ?_, hQ⟩
    rw [List.length_append, Nat.add_assoc]

/-- A reader that only uses the position for its errors. -/
theorem offset_bind {f : Nat → Reader α} (h : ∀ pos, Accepts (f pos) P) :
    Accepts (offset >>= f) P := by
  intro data pos a stop
  rw [runAt_bind_of_ok f (runAt_offset data pos)]
  exact h pos data pos a stop

theorem u8 : Accepts Reader.u8 fun bs b => bs = [b] := by
  refine Local.u8.accepts (fun data pos b stop hnil hrun => ?_) fun bs b => reads_u8_iff
  have hb : data[pos]? = none := by rw [getElem?_eq_head?_ahead, hnil, List.head?_nil]
  simp [Reader.u8, runAt, hb] at hrun

/-- A reader that starts with a byte accepts it and what the rest accepts. -/
theorem u8_bind {f : UInt8 → Reader α} {P : UInt8 → List UInt8 → α → Prop}
    (hf : ∀ b, Accepts (f b) (P b)) :
    Accepts (Reader.u8 >>= f) fun ds a => ∃ b bs, ds = b :: bs ∧ P b bs a := by
  refine (u8.bind hf).congr fun ds a => ⟨?_, ?_⟩
  · rintro ⟨_, bs, b, rfl, rfl, hP⟩
    exact ⟨b, bs, rfl, hP⟩
  · rintro ⟨b, bs, rfl, hP⟩
    exact ⟨[b], bs, b, rfl, rfl, hP⟩

/-- Captured bytes are those that the reader accepts. -/
theorem captured {r : Reader α} (h : Accepts r P) :
    Accepts (Reader.captured r) fun bs cs => cs = bs.toArray ∧ ∃ a, P bs a := by
  intro data pos cs stop
  have hcut : ∀ bs rest, ahead data pos = bs ++ rest →
      data.extract pos (pos + bs.length) = bs.toArray := by
    intro bs rest hahead
    apply Array.toList_inj.mp
    rw [Array.toList_extract, List.extract_eq_take_drop, Nat.add_sub_cancel_left]
    exact (congrArg (List.take bs.length) hahead).trans List.take_left
  constructor
  · intro hrun
    simp only [runAt, Reader.captured] at hrun
    split at hrun
    · next a next ha =>
      injection hrun with hcs hstop
      subst hcs hstop
      obtain ⟨bs, rest, hahead, rfl, hbs⟩ := (h data pos a next).mp ha
      exact ⟨bs, rest, hahead, rfl, hcut bs rest hahead, a, hbs⟩
    · contradiction
  · rintro ⟨bs, rest, hahead, rfl, rfl, a, hbs⟩
    have ha : r data pos = .ok a (pos + bs.length) :=
      (h data pos a _).mpr ⟨bs, rest, hahead, rfl, hbs⟩
    simp only [runAt, Reader.captured, ha, hcut bs rest hahead]

end Accepts

/-- Little-endian numbers of `n` bytes. -/
theorem accepts_littleEndian (hn : 0 < n) :
    Accepts (littleEndian n) fun bs v => bs.length = n ∧ v = leNat bs := by
  refine (Local.littleEndian n).accepts (fun data pos a stop hnil hrun => ?_) fun bs v => ?_
  · obtain ⟨cs, hbytes, -⟩ := runAt_map_eq_ok.mp hrun
    have hsize : data.size ≤ pos := by simpa [ahead] using hnil
    have hle := (runAt_bytes_eq_ok.mp hbytes).1
    omega
  · constructor
    · intro hreads
      have hbs := StandsAt.of_toList bs.toArray
      obtain ⟨cs, hcs, rfl⟩ := (reads_map_iff (Local.bytes n) fun cs => leNat cs.toList).mp hreads
      obtain ⟨-, rfl, hstop⟩ := runAt_bytes_eq_ok.mp (hcs bs.toArray 0 hbs)
      obtain rfl : bs.length = n := Nat.add_left_cancel hstop
      exact ⟨rfl, by rw [hbs.extract_eq]⟩
    · rintro ⟨hlen, rfl⟩
      exact .littleEndian hlen

end Reader

end Wasm
