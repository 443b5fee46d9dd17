import Wasm.Proofs.Groups

/-!
# Wasm.Proofs.Leb128

What the bytes of a variable-length integer spell, and that the readers accept exactly the
spellings of bounded length whose number fits the width.

* `Terminated bs`: all bytes but the last say that more follow.
* `unsignedValue`, `signedValue`: the number that such bytes spell.
* `reads_unsigned_iff`, `reads_signed_iff`: what the readers read.
* `reads_u32_writeUnsigned`, `length_writeUnsigned_le`: the writer's spelling is read back, and
  none is shorter.
-/

namespace Wasm.Leb128

open Reader

/-! ## Spellings -/

/-- Every byte but the last has its top bit set, and there is a last one. -/
def Terminated : List UInt8 → Prop
  | [] => False
  | b :: bs => if continues b then Terminated bs else bs = []

/-- The number that seven-bit groups spell, least significant group first. -/
def unsignedValue : List UInt8 → Nat
  | [] => 0
  | b :: bs => group b + 128 * unsignedValue bs

/-- The number that seven-bit groups spell in two's complement: the last group has a sign. -/
def signedValue : List UInt8 → Int
  | [] => 0
  | b :: bs => if continues b then group b + 128 * signedValue bs else signedGroup b

/-- There is a last group, so there is one. -/
theorem Terminated.length_pos {bs : List UInt8} (h : Terminated bs) : 0 < bs.length := by
  cases bs with
  | nil => exact h.elim
  | cons b bs => simp

/-! ## The readers are local -/

/-- A reader that fails wherever it stands. -/
theorem local_offset_fail (e : Nat → ReadError) : Local (do fail (e (← offset)) : Reader α) := by
  intro data pos a stop _ h
  obtain ⟨_, next, -, hfail⟩ := runAt_bind_eq_ok.mp h
  rw [runAt_fail] at hfail
  contradiction

/-- By induction on the groups that are left. -/
theorem local_unsignedGroups (bits left room : Nat) : Local (unsignedGroups bits left room) := by
  induction left generalizing room with
  | zero => exact local_offset_fail _
  | succ left ih =>
    refine Local.u8.bind fun b => ?_
    exact (local_offset_fail _).ite (((ih _).map _).ite (.pure _))

theorem local_signedGroups (bits left room : Nat) : Local (signedGroups bits left room) := by
  induction left generalizing room with
  | zero => exact local_offset_fail _
  | succ left ih =>
    refine Local.u8.bind fun b => ?_
    exact (local_offset_fail _).ite (((ih _).map _).ite (.pure _))

/-- The loop is local, since it reads what its groups spell. -/
theorem local_unsigned (bits : Nat) : Local (unsigned bits) := by
  rw [unsigned_eq]
  exact local_unsignedGroups bits _ _

theorem local_signed (hpos : 0 < bits) (hbits : bits ≤ 64) : Local (signed bits) := by
  rw [signed_eq hpos hbits]
  exact local_signedGroups bits _ _

/-! ## What the readers read -/

/-- A reader that fails reads nothing. -/
theorem not_reads_offset_fail (e : Nat → ReadError) (bs : List UInt8) (a : α) :
    ¬ Reads (do fail (e (← offset))) bs a := by
  intro h
  have hrun := h bs.toArray 0 (StandsAt.of_toList bs.toArray)
  obtain ⟨_, next, -, hfail⟩ := runAt_bind_eq_ok.mp hrun
  rw [runAt_fail] at hfail
  contradiction

/-- What a reader reads behind a test that it must not fail. -/
theorem reads_unless_iff {p : Prop} [Decidable p] {e : Nat → ReadError} {r : Reader α} :
    Reads (if p then (do fail (e (← offset))) else r) bs a ↔ ¬ p ∧ Reads r bs a := by
  by_cases hp : p
  · rw [if_pos hp]
    constructor
    · intro h
      exact absurd h (not_reads_offset_fail _ _ _)
    · intro h
      obtain ⟨h, -⟩ := h
      exact absurd hp h
  · rw [if_neg hp]
    exact ⟨fun h => ⟨hp, h⟩, fun h => h.2⟩

/-- A reader that starts with a byte needs one. -/
theorem not_reads_u8_bind_nil {f : UInt8 → Reader α} (hf : ∀ b, Local (f b)) :
    ¬ Reads (u8 >>= f) [] a := by
  intro h
  obtain ⟨bs, cs, b, heq, hb, -⟩ := (reads_bind_iff Local.u8 hf).mp h
  rw [reads_u8_iff] at hb
  subst hb
  contradiction

/-- A reader that starts with a byte goes on with the others. -/
theorem reads_u8_bind_cons_iff {f : UInt8 → Reader α} (hf : ∀ b, Local (f b)) :
    Reads (u8 >>= f) (b :: bs) a ↔ Reads (f b) bs a := by
  rw [reads_bind_iff Local.u8 hf]
  constructor
  · intro h
    obtain ⟨ds, cs, b', heq, hb, hcs⟩ := h
    rw [reads_u8_iff] at hb
    subst hb
    injection heq with hb hbs
    subst hb hbs
    exact hcs
  · intro h
    exact ⟨[b], bs, b, rfl, Reads.u8 b, h⟩

/-- One group of an unsigned integer. -/
theorem reads_unsignedGroups_cons_iff {bits left room : Nat} :
    Reads (unsignedGroups bits (left + 1) room) (b :: bs) n ↔
      group b < 1 <<< room ∧
        if continues b then ∃ m, Reads (unsignedGroups bits left (room - 7)) bs m ∧
          n = group b + 128 * m
        else bs = [] ∧ n = group b := by
  rw [unsignedGroups, reads_u8_bind_cons_iff fun b => (local_offset_fail _).ite
    (((local_unsignedGroups bits left _).map _).ite (.pure _)), reads_unless_iff, Nat.not_le]
  by_cases hc : continues b
  · rw [if_pos hc, if_pos hc, reads_map_iff (local_unsignedGroups bits left _)]
  · rw [if_neg hc, if_neg hc, reads_pure_iff]

/-- One group of a signed integer. -/
theorem reads_signedGroups_cons_iff {bits left room : Nat} {v : Int} :
    Reads (signedGroups bits (left + 1) room) (b :: bs) v ↔
      (-(1 <<< (room - 1) : Nat) ≤ signedGroup b ∧ signedGroup b < (1 <<< (room - 1) : Nat)) ∧
        if continues b then ∃ w, Reads (signedGroups bits left (room - 7)) bs w ∧
          v = group b + 128 * w
        else bs = [] ∧ v = signedGroup b := by
  rw [signedGroups, reads_u8_bind_cons_iff fun b => (local_offset_fail _).ite
    (((local_signedGroups bits left _).map _).ite (.pure _)), reads_unless_iff, not_or, Int.not_lt,
    Int.not_le]
  by_cases hc : continues b
  · rw [if_pos hc, if_pos hc, reads_map_iff (local_signedGroups bits left _)]
  · rw [if_neg hc, if_neg hc, reads_pure_iff]

/-- The room left always lies within the bytes left, so a byte that cannot be followed by another
one is the last. -/
theorem reads_unsignedGroups_iff (bits : Nat) {left room : Nat} (hle : room ≤ 7 * left)
    (hlt : 7 * left < room + 7) :
    Reads (unsignedGroups bits left room) bs n ↔
      Terminated bs ∧ bs.length ≤ left ∧ unsignedValue bs = n ∧ n < 1 <<< room := by
  -- The two bounds say that `left` groups are just enough for `room` bits; each group keeps them.
  induction left generalizing room bs n with
  | zero =>
    constructor
    · intro h
      exact absurd h (not_reads_offset_fail _ _ _)
    · intro h
      obtain ⟨hterm, hlen, -⟩ := h
      exact absurd hterm.length_pos (by omega)
  | succ left ih =>
    cases bs with
    | nil =>
      constructor
      · intro h
        exact absurd h (not_reads_u8_bind_nil fun b => (local_offset_fail _).ite
          (((local_unsignedGroups bits left _).map _).ite (.pure _)))
      · intro h
        obtain ⟨hterm, -⟩ := h
        exact hterm.elim
    | cons b bs =>
      rw [reads_unsignedGroups_cons_iff]
      have hg := group_lt b
      simp only [Terminated, unsignedValue, List.length_cons]
      by_cases hc : continues b
      · simp only [if_pos hc]
        by_cases hroom : room ≤ 7
        -- A last group that asks for another one: neither side holds.
        · have hleft : left = 0 := by omega
          subst hleft
          constructor
          · intro h
            obtain ⟨-, m, hm, -⟩ := h
            exact absurd hm (not_reads_offset_fail _ _ _)
          · intro h
            obtain ⟨hterm, hlen, -⟩ := h
            exact absurd hterm.length_pos (by omega)
        · have hpow := one_shiftLeft_of_le room (by omega)
          have hpos := one_shiftLeft_pos (room - 7)
          constructor
          · intro h
            obtain ⟨-, m, hm, rfl⟩ := h
            obtain ⟨hterm, hlen, rfl, hlt⟩ := (ih (by omega) (by omega)).mp hm
            exact ⟨hterm, by omega, rfl, by omega⟩
          · intro h
            obtain ⟨hterm, hlen, rfl, hlt⟩ := h
            exact ⟨by omega, unsignedValue bs,
              (ih (by omega) (by omega)).mpr ⟨hterm, by omega, rfl, by omega⟩, rfl⟩
      · simp only [if_neg hc]
        constructor
        · intro h
          obtain ⟨hlt, rfl, rfl⟩ := h
          exact ⟨rfl, by simp, by simp [unsignedValue], hlt⟩
        · intro h
          obtain ⟨rfl, -, rfl, hlt⟩ := h
          rw [unsignedValue, Nat.mul_zero, Nat.add_zero] at hlt ⊢
          exact ⟨hlt, rfl, rfl⟩

/-- The induction is that of unsigned integers. The sign comes from the last group, and the bound is
split in two. -/
theorem reads_signedGroups_iff (bits : Nat) {left room : Nat} {v : Int} (hle : room ≤ 7 * left)
    (hlt : 7 * left < room + 7) :
    Reads (signedGroups bits left room) bs v ↔
      Terminated bs ∧ bs.length ≤ left ∧ signedValue bs = v ∧
        -(1 <<< (room - 1) : Nat) ≤ v ∧ v < (1 <<< (room - 1) : Nat) := by
  induction left generalizing room bs v with
  | zero =>
    constructor
    · intro h
      exact absurd h (not_reads_offset_fail _ _ _)
    · intro h
      obtain ⟨hterm, hlen, -⟩ := h
      exact absurd hterm.length_pos (by omega)
  | succ left ih =>
    cases bs with
    | nil =>
      constructor
      · intro h
        exact absurd h (not_reads_u8_bind_nil fun b => (local_offset_fail _).ite
          (((local_signedGroups bits left _).map _).ite (.pure _)))
      · intro h
        obtain ⟨hterm, -⟩ := h
        exact hterm.elim
    | cons b bs =>
      rw [reads_signedGroups_cons_iff]
      have hg := group_lt b
      have hs := signedGroup_bounds b
      simp only [Terminated, signedValue, List.length_cons]
      by_cases hc : continues b
      · simp only [if_pos hc]
        by_cases hroom : room ≤ 7
        · have hleft : left = 0 := by omega
          subst hleft
          constructor
          · intro h
            obtain ⟨-, w, hw, -⟩ := h
            exact absurd hw (not_reads_offset_fail _ _ _)
          · intro h
            obtain ⟨hterm, hlen, -⟩ := h
            exact absurd hterm.length_pos (by omega)
        · have hpow := one_shiftLeft_pred_of_lt room (by omega)
          have hpos := one_shiftLeft_pos (room - 7 - 1)
          constructor
          · intro h
            obtain ⟨-, w, hw, rfl⟩ := h
            obtain ⟨hterm, hlen, rfl, hlow, hhigh⟩ := (ih (by omega) (by omega)).mp hw
            exact ⟨hterm, by omega, rfl, by omega, by omega⟩
          · intro h
            obtain ⟨hterm, hlen, rfl, hlow, hhigh⟩ := h
            exact ⟨by omega, signedValue bs,
              (ih (by omega) (by omega)).mpr ⟨hterm, by omega, rfl, by omega, by omega⟩, rfl⟩
      · simp only [if_neg hc]
        constructor
        · intro h
          obtain ⟨hin, rfl, rfl⟩ := h
          exact ⟨rfl, by simp, rfl, hin⟩
        · intro h
          obtain ⟨rfl, -, rfl, hin⟩ := h
          exact ⟨hin, rfl, rfl⟩

/-! ## The shortest spelling -/

/-- The seven low bits and the top bit of a byte made of them. -/
theorem group_ofNat (h : n < 128) :
    group (UInt8.ofNat n) = n ∧ continues (UInt8.ofNat n) = false := by
  have hn : (UInt8.ofNat n).toNat = n := UInt8.toNat_ofNat_of_lt' (Nat.lt_trans h (by decide))
  simp only [group, continues, hn]
  exact ⟨by omega, by simp [h]⟩

/-- A group that says that another one follows. -/
theorem group_ofNat_add (h : n < 128) :
    group (UInt8.ofNat (n + 128)) = n ∧ continues (UInt8.ofNat (n + 128)) = true := by
  have hn : (UInt8.ofNat (n + 128)).toNat = n + 128 :=
    UInt8.toNat_ofNat_of_lt' (Nat.add_lt_add_right h 128)
  simp only [group, continues, hn]
  exact ⟨by omega, by simp⟩

/-- What is written spells the number, with the shortest run of groups. By strong induction, since
each group takes seven bits off. -/
theorem writeUnsigned_spells (n : Nat) :
    Terminated (writeUnsigned n) ∧ unsignedValue (writeUnsigned n) = n := by
  induction n using writeUnsigned.induct with
  | case1 n h =>
    obtain ⟨hg, hc⟩ := group_ofNat h
    rw [writeUnsigned, if_pos h]
    simp [Terminated, unsignedValue, hg, hc]
  | case2 n h ih =>
    obtain ⟨hg, hc⟩ := group_ofNat_add (Nat.mod_lt n (by decide : 128 > 0))
    rw [writeUnsigned, if_neg h]
    simp only [Terminated, unsignedValue, hg, hc, if_true, ih.2]
    exact ⟨ih.1, Nat.mod_add_div n 128⟩

/-- No spelling of a number has fewer bytes than the writer's. -/
theorem length_writeUnsigned_le {bs : List UInt8} (hbs : bs ≠ []) :
    (writeUnsigned (unsignedValue bs)).length ≤ bs.length := by
  induction bs with
  | nil => contradiction
  | cons b bs ih =>
    have hg := group_lt b
    rw [unsignedValue, writeUnsigned]
    split
    · simp
    · next h =>
      have hne : bs ≠ [] := by
        rintro rfl
        rw [unsignedValue] at h
        omega
      have hdiv : (group b + 128 * unsignedValue bs) / 128 = unsignedValue bs := by omega
      rw [hdiv, List.length_cons, List.length_cons]
      exact Nat.succ_le_succ (ih hne)

/-- A smaller number is not written with more bytes. -/
theorem length_writeUnsigned_mono (h : m ≤ n) :
    (writeUnsigned m).length ≤ (writeUnsigned n).length := by
  induction n using writeUnsigned.induct generalizing m with
  | case1 n hn =>
    rw [writeUnsigned, if_pos (Nat.lt_of_le_of_lt h hn), writeUnsigned, if_pos hn]
    exact Nat.le_refl 1
  | case2 n hn ih =>
    rw [writeUnsigned.eq_def n, if_neg hn, List.length_cons, writeUnsigned]
    split
    · exact Nat.le_add_left 1 _
    · exact Nat.succ_le_succ (ih (Nat.div_le_div_right h))

/-- A number that fits `k` groups is written with at most `k` bytes. -/
theorem length_writeUnsigned_le_of_lt {k n : Nat} (hk : 0 < k) (h : n < 1 <<< (7 * k)) :
    (writeUnsigned n).length ≤ k := by
  induction k generalizing n with
  | zero => contradiction
  | succ k ih =>
    rw [writeUnsigned]
    split
    · simp
    · next hn =>
      have hpow : 1 <<< (7 * (k + 1)) = 128 * 1 <<< (7 * k) := one_shiftLeft_add_seven (7 * k)
      have hpos : 0 < k := by
        refine Nat.pos_of_ne_zero fun hz => ?_
        subst hz
        rw [hpow] at h
        exact hn (by simpa using h)
      rw [List.length_cons]
      exact Nat.succ_le_succ (ih hpos (by omega))

end Wasm.Leb128

namespace Wasm.Reader

open Leb128

/-! ## The widths in use -/

theorem local_u32 : Local u32 :=
  (local_unsigned 32).map UInt32.ofNat

theorem local_s32 : Local s32 :=
  (local_signed (by decide) (by decide)).map Int32.ofInt

theorem local_s33 : Local s33 :=
  local_signed (by decide) (by decide)

theorem local_s64 : Local s64 :=
  (local_signed (by decide) (by decide)).map Int64.ofInt

/-- The spellings of a 32-bit integer: up to five groups that spell it. -/
theorem reads_u32_iff {v : UInt32} :
    Reads u32 bs v ↔ Terminated bs ∧ bs.length ≤ 5 ∧ unsignedValue bs = v.toNat := by
  rw [u32, reads_map_iff (local_unsigned 32)]
  have hiff (n : Nat) : Reads (unsigned 32) bs n ↔
      Terminated bs ∧ bs.length ≤ 5 ∧ unsignedValue bs = n ∧ n < UInt32.size := by
    rw [unsigned_eq]
    exact reads_unsignedGroups_iff 32 (by decide) (by decide)
  simp only [hiff]
  constructor
  · intro h
    obtain ⟨n, ⟨hterm, hlen, rfl, hlt⟩, rfl⟩ := h
    exact ⟨hterm, hlen, (UInt32.toNat_ofNat_of_lt' hlt).symm⟩
  · intro h
    obtain ⟨hterm, hlen, hv⟩ := h
    exact ⟨v.toNat, ⟨hterm, hlen, hv, v.toNat_lt⟩, UInt32.ofNat_toNat.symm⟩

/-- Up to five groups, of which the last one must not leave the range. -/
theorem reads_s33_iff {v : Int} :
    Reads s33 bs v ↔ Terminated bs ∧ bs.length ≤ 5 ∧ signedValue bs = v ∧
      -UInt32.size ≤ v ∧ v < UInt32.size := by
  rw [s33, signed_eq (by decide) (by decide)]
  exact reads_signedGroups_iff 33 (by decide) (by decide)

/-- Every 32-bit number is read back from its shortest spelling. -/
theorem reads_u32_writeUnsigned (v : UInt32) : Reads u32 (writeUnsigned v.toNat) v := by
  obtain ⟨hterm, hvalue⟩ := writeUnsigned_spells v.toNat
  have hlt : v.toNat < 1 <<< (7 * 5) := Nat.lt_trans v.toNat_lt (by decide)
  exact reads_u32_iff.mpr ⟨hterm, length_writeUnsigned_le_of_lt (by decide) hlt, hvalue⟩

/-- The shortest spelling is not longer than the one that was read. -/
theorem Reads.length_writeUnsigned_le {v : UInt32} (h : Reads Reader.u32 bs v) :
    (writeUnsigned v.toNat).length ≤ bs.length := by
  obtain ⟨hterm, -, hv⟩ := reads_u32_iff.mp h
  rw [← hv]
  exact Leb128.length_writeUnsigned_le (List.ne_nil_of_length_pos hterm.length_pos)

/-! ## Vectors -/

/-- `r` reads the items one after the other from `bs`. -/
inductive ReadsAll (r : Reader α) : List UInt8 → List α → Prop where
  | nil : ReadsAll r [] []
  | cons (ha : Reads r bs a) (has : ReadsAll r cs as) : ReadsAll r (bs ++ cs) (a :: as)

theorem ReadsAll.concat {r : Reader α} (has : ReadsAll r bs as) (ha : Reads r cs a) :
    ReadsAll r (bs ++ cs) (as ++ [a]) := by
  induction has with
  | nil =>
    have hone := ReadsAll.cons ha .nil
    rwa [List.append_nil] at hone
  | cons hb _ ih =>
    rw [List.append_assoc]
    exact .cons hb ih

/-- The last item of those that were read, apart from the others. -/
theorem ReadsAll.exists_concat {r : Reader α} (h : ReadsAll r ds items)
    (hlen : items.length = n + 1) :
    ∃ bs cs as a, ds = bs ++ cs ∧ items = as ++ [a] ∧ as.length = n ∧ ReadsAll r bs as ∧
      Reads r cs a := by
  induction h generalizing n with
  | nil => contradiction
  | @cons bs a cs as ha has ih =>
    rw [List.length_cons] at hlen
    cases as with
    | nil =>
      cases has
      exact ⟨[], bs, [], a, List.append_nil bs, rfl, Nat.succ.inj hlen, .nil, ha⟩
    | cons b as =>
      rw [List.length_cons] at hlen
      obtain ⟨bs', cs', as', a', rfl, heq, hlen', hall, hlast⟩ := ih (List.length_cons)
      refine ⟨bs ++ bs', cs', a :: as', a', by rw [List.append_assoc], ?_, ?_, .cons ha hall,
        hlast⟩
      · rw [heq, List.cons_append]
      · rw [List.length_cons]
        omega

/-- Items are read one after the other behind those that are there. -/
theorem ReadsAll.repeated {r : Reader α} (h : ReadsAll r bs as) (items : Array α) :
    Reads (Reader.repeated r as.length items) bs (items ++ as.toArray) := by
  induction h generalizing items with
  | nil =>
    rw [Array.append_empty]
    exact Reads.pure items
  | @cons bs a cs as ha has ih =>
    have hpush : items ++ (a :: as).toArray = items.push a ++ as.toArray := by
      apply Array.toList_inj.mp
      simp
    rw [hpush]
    exact ha.bind (ih (items.push a))

/-- A vector is read from its count and its items. -/
theorem Reads.vec {r : Reader α} {n : UInt32} (hn : Reads Reader.u32 cs n)
    (h : ReadsAll r bs as) (hlen : as.length = n.toNat) :
    Reads (Reader.vec r) (cs ++ bs) as.toArray := by
  have hall := h.repeated #[]
  rw [hlen, Array.empty_append] at hall
  exact hn.bind hall

end Wasm.Reader
