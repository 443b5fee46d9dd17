import Mathlib
import Wasm.Proofs.Acceptance

/-!
# Wasm.Proofs.Varint

What the readers of variable-length integers make of any bytes: a number, or one of three errors.

* `Sign.value`, `Sign.Holds`: the number that groups spell, and the numbers of a width.
* `Spelling`, `Overflows`, `Overruns`, `Ends`: what the bytes ahead may be.
* `Exact`: a reader answers with a number, or with the error in question, exactly in these cases.
* `integers_exact`: this holds of all readers in use.
* `spelling_writeSigned`, `length_writeSigned_le`: the writer of signed integers spells the number
  that it is given, and no spelling of it is shorter.

The readers go byte by byte and look at the room that is left, while the cases are told by the value
and by single bits of the last byte. For the errors all that matters is how a run ends, which both
signs decide in the same way (`Loop`).
-/

namespace Wasm

namespace Reader

/-! ## How a run ends -/

/-- How a run ends: with an error or without one, and where. -/
def ending : EStateM.Result ReadError Nat α → Option ReadError × Nat
  | .ok _ stop => (none, stop)
  | .error e stop => (some e, stop)

/-- An ending is an error and where it was raised. -/
theorem ending_eq_error_iff {res : EStateM.Result ReadError Nat α} :
    ending res = (some e, stop) ↔ res = .error e stop := by
  cases res <;> simp [ending]

/-- Whether a step that takes no bytes comes last does not matter. -/
theorem ending_map (r : Reader α) (f : α → β) (data : Array UInt8) (pos : Nat) :
    ending ((do return f (← r)).runAt data pos) = ending (r.runAt data pos) := by
  rw [runAt_bind]
  cases r.runAt data pos <;> rfl

end Reader

namespace Leb128

open Reader

/-! ## What the bytes may be -/

/-- Whether the numbers of a width have a sign. -/
inductive Sign where
  | unsigned
  | signed
  deriving DecidableEq, Repr

namespace Sign

/-- The number that seven-bit groups spell. With a sign, this is in two's complement of as many bits
as there are. -/
def value : Sign → List UInt8 → Int
  | .unsigned, bs => unsignedValue bs
  | .signed, bs => Int.bmod (unsignedValue bs) (128 ^ bs.length)

/-- A number is one of those of a width. -/
def Holds : Sign → (bits : Nat) → Int → Prop
  | .unsigned, bits, v => 0 ≤ v ∧ v < 2 ^ bits
  | .signed, bits, v => -2 ^ (bits - 1) ≤ v ∧ v < 2 ^ (bits - 1)

/-- The first `used` bits of a byte leave some of its seven bits unused, and one of these is not
zero; with a sign, it differs from the sign bit, the last that is used. -/
def Exceeds (used : Nat) (b : UInt8) : Sign → Prop
  | .unsigned => ∃ i, used ≤ i ∧ i < 7 ∧ b.toNat.testBit i ≠ false
  | .signed => ∃ i, used ≤ i ∧ i < 7 ∧ b.toNat.testBit i ≠ b.toNat.testBit (used - 1)

end Sign

/-- The bits of the width that are left for the last byte of as many as there may be. -/
def lastBits (bits : Nat) : Nat := bits - 7 * (limit bits - 1)

/-- Bytes that spell a number of a width: not too many, all but the last of which say that more
follow. -/
structure Spelling (sign : Sign) (bits : Nat) (bs : List UInt8) (v : Int) : Prop where
  length : bs.length ≤ limit bits
  terminated : Terminated bs
  value : sign.value bs = v
  holds : sign.Holds bits v

/-- As many bytes as there may be are reached, and the last of them uses bits that are not of the
width. -/
def Overflows (sign : Sign) (bits : Nat) (input : List UInt8) : Prop :=
  ∃ init last rest, input = init ++ last :: rest ∧ init.length + 1 = limit bits ∧
    (∀ b ∈ init, continues b) ∧ sign.Exceeds (lastBits bits) last

/-- As many bytes as there may be all say that more follow, and the last of them uses no bits that
are not of the width. -/
def Overruns (sign : Sign) (bits : Nat) (input : List UInt8) : Prop :=
  ∃ init last rest, input = init ++ last :: rest ∧ init.length + 1 = limit bits ∧
    (∀ b ∈ init ++ [last], continues b) ∧ ¬ sign.Exceeds (lastBits bits) last

/-- All bytes say that more follow, and there are fewer than there may be. -/
def Ends (bits : Nat) (input : List UInt8) : Prop :=
  input.length < limit bits ∧ ∀ b ∈ input, continues b

/-- The errors, each with its cause, the place that it gives and the place where the reader
stops. -/
inductive Fails (sign : Sign) (bits : Nat) (input : List UInt8) (pos : Nat) :
    ReadError → (stop : Nat) → Prop where
  | overflow (h : Overflows sign bits input) :
      Fails sign bits input pos (.leb128Overflow bits (pos + limit bits)) (pos + limit bits)
  | tooManyBytes (h : Overruns sign bits input) :
      Fails sign bits input pos (.leb128TooManyBytes (limit bits) (pos + limit bits))
        (pos + limit bits)
  | unexpectedEof (h : Ends bits input) :
      Fails sign bits input pos (.unexpectedEof (pos + input.length)) (pos + input.length)

/-- What a reader of integers makes of the bytes ahead. -/
structure Exact (sign : Sign) (bits : Nat) (toInt : α → Int) (r : Reader α) : Prop where
  ok : Accepts r fun bs v => Spelling sign bits bs (toInt v)
  error : ∀ data pos e stop, r.runAt data pos = .error e stop ↔
    Fails sign bits (ahead data pos) pos e stop
  unread : ∀ data pos v k data' pos', r.runAt data pos = .ok v (pos + k) →
    (ahead data' pos').take k = (ahead data pos).take k → r.runAt data' pos' = .ok v (pos' + k)

/-- Of `n` bytes that may come, either one is the last, or all are there and none is, or there are
not enough. -/
theorem exists_cut (n : Nat) (hn : 0 < n) (input : List UInt8) :
    (∃ init last rest, input = init ++ last :: rest ∧ init.length + 1 ≤ n ∧
      (∀ b ∈ init, continues b) ∧ continues last = false) ∨
    (∃ init last rest, input = init ++ last :: rest ∧ init.length + 1 = n ∧
      (∀ b ∈ init, continues b) ∧ continues last = true) ∨
    (input.length < n ∧ ∀ b ∈ input, continues b) := by
  induction n generalizing input with
  | zero => contradiction
  | succ n ih =>
    cases input with
    | nil => exact .inr (.inr ⟨hn, by simp⟩)
    | cons b input =>
      cases hb : continues b with
      | false => exact .inl ⟨[], b, input, rfl, by simp, by simp, hb⟩
      | true =>
        rcases Nat.eq_zero_or_pos n with rfl | hpos
        · exact .inr (.inl ⟨[], b, input, rfl, rfl, by simp, hb⟩)
        · rcases ih hpos input with ⟨init, last, rest, rfl, hlen, hinit, hlast⟩ |
            ⟨init, last, rest, rfl, hlen, hinit, hlast⟩ | ⟨hlen, hall⟩
          · exact .inl ⟨b :: init, last, rest, rfl, Nat.succ_le_succ hlen,
              List.forall_mem_cons.mpr ⟨hb, hinit⟩, hlast⟩
          · exact .inr (.inl ⟨b :: init, last, rest, rfl, congrArg Nat.succ hlen,
              List.forall_mem_cons.mpr ⟨hb, hinit⟩, hlast⟩)
          · exact .inr (.inr ⟨Nat.succ_lt_succ hlen, List.forall_mem_cons.mpr ⟨hb, hall⟩⟩)

/-! ## Values -/

/-- To give the last group a sign is to read all groups in two's complement. -/
theorem signedValue_eq_bmod {bs : List UInt8} (h : Terminated bs) :
    signedValue bs = Int.bmod (unsignedValue bs) (128 ^ bs.length) := by
  induction bs with
  | nil => exact h.elim
  | cons b bs ih =>
    have hg := group_lt b
    have hs := signedGroup_bounds b
    rw [eq_comm, Int.bmod_eq_iff (by positivity), List.length_cons, pow_succ]
    rw [Terminated] at h
    simp only [signedValue, unsignedValue]
    by_cases hb : continues b
    · rw [if_pos hb] at h ⊢
      obtain ⟨k, hk⟩ : ∃ k, bs.length = k + 1 :=
        Nat.exists_eq_succ_of_ne_zero (Nat.ne_of_gt h.length_pos)
      obtain ⟨hlow, hhigh, c, hc⟩ := (Int.bmod_eq_iff (by positivity)).mp (ih h).symm
      rw [hk, pow_succ] at hlow hhigh hc ⊢
      push_cast at hlow hhigh hc ⊢
      refine ⟨by omega, by omega, c, ?_⟩
      linear_combination 128 * hc
    · rw [if_neg hb] at h ⊢
      subst h
      simp only [signedGroup, unsignedValue, List.length_nil]
      split <;> push_cast <;> exact ⟨by omega, by omega, by omega⟩

/-! ## Bits of the last byte -/

/-- A number of seven bits is small if the bits above are zero. -/
theorem lt_two_pow_iff_testBit {x k : Nat} (hx : x < 2 ^ 7) :
    x < 2 ^ k ↔ ∀ i, k ≤ i → i < 7 → x.testBit i = false := by
  constructor
  · intro hlt i hi _
    exact Nat.testBit_lt_two_pow (Nat.lt_of_lt_of_le hlt (Nat.pow_le_pow_right (by decide) hi))
  · intro h
    refine Nat.lt_pow_two_of_testBit x fun i hi => ?_
    by_cases hi7 : i < 7
    · exact h i hi hi7
    · exact Nat.testBit_lt_two_pow
        (Nat.lt_of_lt_of_le hx (Nat.pow_le_pow_right (by decide) (Nat.le_of_not_lt hi7)))

/-- A group has the low bits of its byte. -/
theorem testBit_group (b : UInt8) (hi : i < 7) : (group b).testBit i = b.toNat.testBit i := by
  have hmod : group b = b.toNat % 2 ^ 7 := rfl
  rw [hmod, Nat.testBit_mod_two_pow]
  simp [hi]

/-- The range test on a group is a test of the bits past the room. -/
theorem le_group_iff_exceeds (b : UInt8) (room : Nat) :
    1 <<< room ≤ group b ↔ Sign.unsigned.Exceeds room b := by
  rw [← Nat.not_lt, Nat.one_shiftLeft, lt_two_pow_iff_testBit (group_lt b), Sign.Exceeds]
  push Not
  refine exists_congr fun i => and_congr_right fun _ => and_congr_right fun hi => ?_
  rw [testBit_group b hi]

/-- The seven bits of a byte are a small number in two's complement if the sign bit and those above
are the same. -/
theorem signedGroup_in_iff_testBit (b : UInt8) (hk : k < 7) :
    -(2 ^ k : Int) ≤ signedGroup b ∧ signedGroup b < 2 ^ k ↔
      ∀ i, k ≤ i → i < 7 → b.toNat.testBit i = b.toNat.testBit k := by
  have hg : group b < 2 ^ 7 := group_lt b
  have hk6 : 2 ^ k ≤ 2 ^ 6 := Nat.pow_le_pow_right (by decide) (by omega)
  -- Small numbers have all these bits clear, those that stand for small negative ones have all set.
  have hclear : group b < 2 ^ k ↔ ∀ i, k ≤ i → i < 7 → b.toNat.testBit i = false := by
    rw [lt_two_pow_iff_testBit hg]
    exact forall_congr' fun i => imp_congr_right fun _ => imp_congr_right fun hi => by
      rw [testBit_group b hi]
  have hset : 2 ^ 7 - 2 ^ k ≤ group b ↔ ∀ i, k ≤ i → i < 7 → b.toNat.testBit i = true := by
    have hcomplement : 2 ^ 7 - 2 ^ k ≤ group b ↔ 2 ^ 7 - (group b + 1) < 2 ^ k := by omega
    rw [hcomplement, lt_two_pow_iff_testBit (by omega)]
    refine forall_congr' fun i => imp_congr_right fun _ => imp_congr_right fun hi => ?_
    rw [Nat.testBit_two_pow_sub_succ hg, testBit_group b hi]
    simp [hi]
  have hsmall : (-(2 ^ k : Int) ≤ signedGroup b ∧ signedGroup b < 2 ^ k) ↔
      group b < 2 ^ k ∨ 2 ^ 7 - 2 ^ k ≤ group b := by
    have hcast : ((2 ^ k : Nat) : Int) = 2 ^ k := by push_cast; rfl
    rw [← hcast, signedGroup]
    split <;> omega
  rw [hsmall, hclear, hset]
  constructor
  · rintro (h | h) i hi hi7
    · rw [h i hi hi7, h k (Nat.le_refl k) hk]
    · rw [h i hi hi7, h k (Nat.le_refl k) hk]
  · intro h
    cases hbit : b.toNat.testBit k with
    | false => exact .inl fun i hi hi7 => (h i hi hi7).trans hbit
    | true => exact .inr fun i hi hi7 => (h i hi hi7).trans hbit

/-- For signed integers, these bits have to be copies of the sign. -/
theorem signedGroup_out_iff_exceeds (b : UInt8) (hroom : 0 < room) :
    (signedGroup b < -(1 <<< (room - 1) : Nat) ∨ ((1 <<< (room - 1) : Nat) : Int) ≤ signedGroup b) ↔
      Sign.signed.Exceeds room b := by
  rw [← not_iff_not, not_or, Int.not_lt, Int.not_le, Nat.one_shiftLeft, Nat.cast_pow, Nat.cast_two,
    Sign.Exceeds]
  push Not
  by_cases hlast : room ≤ 7
  · rw [signedGroup_in_iff_testBit b (by omega)]
    constructor
    · intro h i hi hi7
      exact h i (by omega) hi7
    · intro h i hi hi7
      obtain rfl | hlt := Nat.eq_or_lt_of_le hi
      · rfl
      · exact h i (by omega) hi7
  · have hs := signedGroup_bounds b
    have hpow : (2 : Int) ^ 6 ≤ 2 ^ (room - 1) := pow_le_pow_right₀ (by decide) (by omega)
    exact iff_of_true ⟨by omega, by omega⟩ fun i hi hi7 => absurd hi (by omega)

/-! ## Loops -/

/-- A reader that takes up to `left` groups, with `room` bits left for them, as far as the end of
its run goes. -/
structure Loop (sign : Sign) (bits : Nat) (g : (left room : Nat) → Reader α) : Prop where
  full : ∀ room data pos,
    ending ((g 0 room).runAt data pos) = (some (.leb128TooManyBytes (limit bits) pos), pos)
  empty : ∀ left room data pos, ahead data pos = [] →
    ending ((g (left + 1) room).runAt data pos) = (some (.unexpectedEof pos), pos)
  exceeding : ∀ left room data pos b rest, 0 < room → ahead data pos = b :: rest →
    sign.Exceeds room b →
    ending ((g (left + 1) room).runAt data pos) = (some (.leb128Overflow bits (pos + 1)), pos + 1)
  next : ∀ left room data pos b rest, 0 < room → ahead data pos = b :: rest →
    ¬ sign.Exceeds room b → continues b = true →
    ending ((g (left + 1) room).runAt data pos) = ending ((g left (room - 7)).runAt data (pos + 1))
  last : ∀ left room data pos b rest, 0 < room → ahead data pos = b :: rest →
    ¬ sign.Exceeds room b → continues b = false →
    ending ((g (left + 1) room).runAt data pos) = (none, pos + 1)

namespace Loop

/-- A loop as it is written: it differs between the signs in which bytes do not fit, and in the
number that it makes of the groups. -/
theorem of_groups {g : (left room : Nat) → Reader α} {Bad : Nat → UInt8 → Prop}
    [∀ room b, Decidable (Bad room b)] {f : UInt8 → α → α} {c : UInt8 → α}
    (hbad : ∀ room b, 0 < room → (Bad room b ↔ sign.Exceeds room b))
    (hzero : ∀ room, g 0 room = do fail (.leb128TooManyBytes (limit bits) (← offset)))
    (hsucc : ∀ left room, g (left + 1) room = do
      let b ← u8
      if Bad room b then fail (.leb128Overflow bits (← offset))
      else if continues b then return f b (← g left (room - 7))
      else return c b) : Loop sign bits g := by
  -- With a byte ahead, the loop is the decision about that byte.
  have hbyte : ∀ left room data pos b rest, ahead data pos = b :: rest →
      (g (left + 1) room).runAt data pos = (if Bad room b then do
          fail (.leb128Overflow bits (← offset))
        else if continues b then do return f b (← g left (room - 7))
        else return c b : Reader α).runAt data (pos + 1) := by
    intro left room data pos b rest hahead
    have hb : data[pos]? = some b := by rw [getElem?_eq_head?_ahead, hahead, List.head?_cons]
    rw [hsucc, runAt_bind_of_ok _ (runAt_u8_of_some hb)]
  constructor
  case full =>
    intro room data pos
    rw [hzero]
    rfl
  case empty =>
    intro left room data pos hahead
    have hb : data[pos]? = none := by rw [getElem?_eq_head?_ahead, hahead, List.head?_nil]
    have hu8 : u8.runAt data pos = .error (.unexpectedEof pos) pos := by
      simp only [runAt, u8, hb]
    rw [hsucc, runAt_bind, hu8]
    rfl
  case exceeding =>
    intro left room data pos b rest hroom hahead hexceeds
    rw [hbyte left room data pos b rest hahead, if_pos ((hbad room b hroom).mpr hexceeds)]
    rfl
  case next =>
    intro left room data pos b rest hroom hahead hexceeds hb
    rw [hbyte left room data pos b rest hahead, if_neg (mt (hbad room b hroom).mp hexceeds),
      if_pos hb]
    exact ending_map _ _ data (pos + 1)
  case last =>
    intro left room data pos b rest hroom hahead hexceeds hb
    rw [hbyte left room data pos b rest hahead, if_neg (mt (hbad room b hroom).mp hexceeds),
      if_neg (by simp [hb])]
    rfl

variable {g : (left room : Nat) → Reader α} {data : Array UInt8}

/-- Where there is room for seven bits, no group exceeds it. -/
theorem not_exceeds_of_le (sign : Sign) (b : UInt8) (hroom : 7 ≤ room) : ¬ sign.Exceeds room b := by
  cases sign <;> rintro ⟨i, hi, hi7, -⟩ <;> omega

/-- Bytes that say that more follow are passed over, as long as they are not the last that may
be. -/
theorem ending_append (h : Loop sign bits g) (left : Nat) (hahead : ahead data pos = init ++ rest)
    (hinit : ∀ b ∈ init, continues b) (hroom : 7 * init.length < room) :
    ending ((g (init.length + left) room).runAt data pos) =
      ending ((g left (room - 7 * init.length)).runAt data (pos + init.length)) := by
  induction init generalizing pos room with
  | nil => simp
  | cons b init ih =>
    rw [List.length_cons] at hroom
    obtain ⟨hb, hinit⟩ := List.forall_mem_cons.mp hinit
    have hnext := h.next (init.length + left) room data pos b (init ++ rest) (by omega) hahead
      (not_exceeds_of_le sign b (by omega)) hb
    rw [List.length_cons, Nat.add_right_comm, hnext, ih (ahead_succ hahead) hinit (by omega),
      Nat.add_right_comm pos, Nat.add_assoc pos]
    congr 3
    omega

theorem limit_pos (hbits : 0 < bits) : 0 < limit bits := by
  unfold limit
  omega

/-- The room that the bytes before the last leave it. -/
theorem lastBits_bounds (hbits : 0 < bits) : 7 * (limit bits - 1) + lastBits bits = bits ∧
    0 < lastBits bits := by
  unfold lastBits limit
  omega

/-- Data that end inside an integer are reported at their end. -/
theorem ending_of_ends (h : Loop sign bits g) (hbits : 0 < bits)
    (hends : Ends bits (ahead data pos)) :
    ending ((g (limit bits) bits).runAt data pos) =
      (some (.unexpectedEof (pos + (ahead data pos).length)), pos + (ahead data pos).length) := by
  obtain ⟨hlen, hall⟩ := hends
  obtain ⟨left, hleft⟩ := Nat.exists_eq_add_of_lt hlen
  have hroom := lastBits_bounds hbits
  have hahead : ahead data pos = ahead data pos ++ [] := (List.append_nil _).symm
  rw [hleft, Nat.add_assoc, h.ending_append (left + 1) hahead hall (by omega)]
  exact h.empty left _ data _ (ahead_add hahead)

/-- The last byte that may come, after all others. -/
theorem ending_at_limit (h : Loop sign bits g) (hbits : 0 < bits)
    (hahead : ahead data pos = init ++ rest) (hlen : init.length + 1 = limit bits)
    (hinit : ∀ b ∈ init, continues b) :
    ending ((g (limit bits) bits).runAt data pos) =
      ending ((g 1 (lastBits bits)).runAt data (pos + init.length)) := by
  have hroom := lastBits_bounds hbits
  have hused : bits - 7 * init.length = lastBits bits := by
    rw [lastBits, ← hlen, Nat.add_sub_cancel]
  rw [← hlen, h.ending_append 1 hahead hinit (by omega), hused]

/-- A last group that exceeds the room is reported behind it. -/
theorem ending_of_overflows (h : Loop sign bits g) (hbits : 0 < bits)
    (hover : Overflows sign bits (ahead data pos)) :
    ending ((g (limit bits) bits).runAt data pos) =
      (some (.leb128Overflow bits (pos + limit bits)), pos + limit bits) := by
  obtain ⟨init, last, rest, hahead, hlen, hinit, hexceeds⟩ := hover
  rw [h.ending_at_limit hbits hahead hlen hinit, h.exceeding 0 _ data _ last rest
    (lastBits_bounds hbits).2 (ahead_add hahead) hexceeds, Nat.add_assoc, hlen]

/-- So is a group too many. -/
theorem ending_of_overruns (h : Loop sign bits g) (hbits : 0 < bits)
    (hover : Overruns sign bits (ahead data pos)) :
    ending ((g (limit bits) bits).runAt data pos) =
      (some (.leb128TooManyBytes (limit bits) (pos + limit bits)), pos + limit bits) := by
  obtain ⟨init, last, rest, hahead, hlen, hall, hexceeds⟩ := hover
  obtain ⟨hinit, hlast⟩ := List.forall_mem_append.mp hall
  rw [h.ending_at_limit hbits hahead hlen hinit, h.next 0 _ data _ last rest
    (lastBits_bounds hbits).2 (ahead_add hahead) hexceeds (hlast last List.mem_cons_self), h.full,
    Nat.add_assoc, hlen]

/-- A last byte that fits ends the number. -/
theorem ending_of_terminated {last : UInt8} (h : Loop sign bits g) (hbits : 0 < bits)
    (hahead : ahead data pos = init ++ last :: rest) (hlen : init.length + 1 ≤ limit bits)
    (hinit : ∀ b ∈ init, continues b) (hlast : continues last = false)
    (hover : ¬ Overflows sign bits (ahead data pos)) :
    ending ((g (limit bits) bits).runAt data pos) = (none, pos + init.length + 1) := by
  have hroom := lastBits_bounds hbits
  have hfits : ¬ sign.Exceeds (bits - 7 * init.length) last := by
    obtain heq | hlt := Nat.eq_or_lt_of_le hlen
    · intro hexceeds
      refine hover ⟨init, last, rest, hahead, heq, hinit, ?_⟩
      rwa [lastBits, ← heq, Nat.add_sub_cancel]
    · exact not_exceeds_of_le sign last (by omega)
  obtain ⟨left, hleft⟩ := Nat.exists_eq_add_of_le hlen
  rw [hleft, Nat.add_assoc, Nat.add_comm 1, h.ending_append (left + 1) hahead hinit (by omega)]
  exact h.last left _ data _ last rest (by omega) (ahead_add hahead) hfits hlast

/-- A run of a loop ends in one of the errors or without one. -/
theorem ending_cases (h : Loop sign bits g) (hbits : 0 < bits) (data : Array UInt8) (pos : Nat) :
    ∃ stop, ending ((g (limit bits) bits).runAt data pos) = (none, stop) ∨
      ∃ e, Fails sign bits (ahead data pos) pos e stop := by
  by_cases hover : Overflows sign bits (ahead data pos)
  · exact ⟨_, .inr ⟨_, .overflow hover⟩⟩
  · obtain ⟨init, last, rest, hahead, hlen, hinit, hlast⟩ |
      ⟨init, last, rest, hahead, hlen, hinit, hlast⟩ | hends :=
      exists_cut (limit bits) (limit_pos hbits) (ahead data pos)
    · exact ⟨_, .inl (h.ending_of_terminated hbits hahead hlen hinit hlast hover)⟩
    · refine ⟨_, .inr ⟨_, .tooManyBytes ⟨init, last, rest, hahead, hlen, ?_, ?_⟩⟩⟩
      · exact List.forall_mem_append.mpr ⟨hinit, by simpa using hlast⟩
      · intro hexceeds
        exact hover ⟨init, last, rest, hahead, hlen, hinit, hexceeds⟩
    · exact ⟨_, .inr ⟨_, .unexpectedEof hends⟩⟩

/-- The three ways to fail exclude each other, so each of them is an equivalence. -/
theorem runAt_eq_error_iff (h : Loop sign bits g) (hbits : 0 < bits) :
    (g (limit bits) bits).runAt data pos = .error e stop ↔
      Fails sign bits (ahead data pos) pos e stop := by
  have hfails : ∀ e stop, Fails sign bits (ahead data pos) pos e stop →
      ending ((g (limit bits) bits).runAt data pos) = (some e, stop) := by
    intro e stop hfails
    cases hfails with
    | overflow hover => exact h.ending_of_overflows hbits hover
    | tooManyBytes hover => exact h.ending_of_overruns hbits hover
    | unexpectedEof hends => exact h.ending_of_ends hbits hends
  rw [← ending_eq_error_iff]
  constructor
  · intro hending
    obtain ⟨stop', hnone | ⟨e', he'⟩⟩ := h.ending_cases hbits data pos
    · simp [hnone] at hending
    · rw [hfails e' stop' he', Prod.mk.injEq, Option.some.injEq] at hending
      obtain ⟨rfl, rfl⟩ := hending
      exact he'
  · exact hfails e stop

end Loop

/-! ## Exact readers -/

namespace Exact

/-- A loop that reads the spellings of a width fails in the right way on all other bytes. -/
theorem of_loop {g : (left room : Nat) → Reader α} {toInt : α → Int} (hloop : Loop sign bits g)
    (hbits : 0 < bits) (hlocal : Local (g (limit bits) bits))
    (hreads : ∀ bs v, Reads (g (limit bits) bits) bs v ↔ Spelling sign bits bs (toInt v)) :
    Exact sign bits toInt (g (limit bits) bits) := by
  have hok : Accepts (g (limit bits) bits) fun bs v => Spelling sign bits bs (toInt v) := by
    refine hlocal.accepts (fun data pos a stop hnil hrun => ?_) hreads
    have hends : Ends bits (ahead data pos) := by simp [Ends, hnil, Loop.limit_pos hbits]
    have herror := (hloop.runAt_eq_error_iff hbits).mpr (.unexpectedEof hends)
    rw [hrun] at herror
    contradiction
  exact ⟨hok, fun data pos e stop => hloop.runAt_eq_error_iff hbits,
    fun data pos v k data' pos' => hok.unread⟩

/-- A last step that gives the numbers of a width another form. -/
theorem map {r : Reader α} {toInt : α → Int} {toInt' : β → Int} (h : Exact sign bits toInt r)
    (f : α → β) (hf : ∀ a, sign.Holds bits (toInt a) → toInt' (f a) = toInt a)
    (hsurj : ∀ b, ∃ a, f a = b ∧ toInt a = toInt' b) :
    Exact sign bits toInt' (do return f (← r)) := by
  have hok : Accepts (do return f (← r)) fun bs v => Spelling sign bits bs (toInt' v) := by
    refine h.ok.map fun bs b => ⟨fun hb => ?_, ?_⟩
    · obtain ⟨a, rfl, ha⟩ := hsurj b
      exact ⟨a, ha ▸ hb, rfl⟩
    · rintro ⟨a, ha, rfl⟩
      exact hf a ha.holds ▸ ha
  refine ⟨hok, fun data pos e stop => ?_, fun data pos v k data' pos' => hok.unread⟩
  rw [← h.error, ← ending_eq_error_iff, ending_map, ending_eq_error_iff]

end Exact

/-- The loop over groups is the loop that shifts and adds. -/
theorem exact_unsigned (hbits : 0 < bits) :
    Exact .unsigned bits (fun n : Nat => (n : Int)) (unsigned bits) := by
  have hloop : Loop .unsigned bits (unsignedGroups bits) :=
    .of_groups (fun room b _ => le_group_iff_exceeds b room) (fun _ => rfl) fun _ _ => rfl
  rw [unsigned_eq]
  refine .of_loop hloop hbits (local_unsignedGroups bits _ _) fun bs n => ?_
  obtain ⟨hle, hlt⟩ := limit_bounds bits
  rw [reads_unsignedGroups_iff bits hle hlt, Nat.one_shiftLeft]
  constructor
  · rintro ⟨hterm, hlen, rfl, hn⟩
    exact ⟨hlen, hterm, rfl, Int.natCast_nonneg _, by exact_mod_cast hn⟩
  · rintro ⟨hlen, hterm, hvalue, -, hn⟩
    exact ⟨hterm, hlen, Int.ofNat.inj hvalue, by exact_mod_cast hn⟩

theorem exact_signed (hbits : 0 < bits) (hle : bits ≤ 64) :
    Exact .signed bits (fun v : Int => v) (signed bits) := by
  have hloop : Loop .signed bits (signedGroups bits) :=
    .of_groups (fun room b => signedGroup_out_iff_exceeds b) (fun _ => rfl) fun _ _ => rfl
  rw [signed_eq hbits hle]
  refine .of_loop hloop hbits (local_signedGroups bits _ _) fun bs v => ?_
  obtain ⟨hle, hlt⟩ := limit_bounds bits
  rw [reads_signedGroups_iff bits hle hlt, Nat.one_shiftLeft, Nat.cast_pow, Nat.cast_two]
  constructor
  · rintro ⟨hterm, hlen, rfl, hlow, hhigh⟩
    exact ⟨hlen, hterm, (signedValue_eq_bmod hterm).symm, hlow, hhigh⟩
  · rintro ⟨hlen, hterm, hvalue, hlow, hhigh⟩
    exact ⟨hterm, hlen, (signedValue_eq_bmod hterm).trans hvalue, hlow, hhigh⟩

/-! ## The shortest signed spelling -/

/-- What is written spells the number. By induction on its size; the two cases that end it are those
where the rest is the sign alone. -/
theorem writeSigned_spells (v : Int) :
    Terminated (writeSigned v) ∧ signedValue (writeSigned v) = v := by
  induction v using writeSigned.induct with
  | case1 v low rest h =>
    have hv := (copiesSign_iff v).mp h
    obtain ⟨hg, hc⟩ := group_ofNat (n := (v % 128).toNat) (by omega)
    rw [writeSigned_eq, if_pos hv]
    simp only [Terminated, signedValue, signedGroup, hg, hc, Bool.false_eq_true, if_false, true_and]
    split <;> omega
  | case2 v low rest h ih =>
    have hrest : rest = v / 128 := Int.shiftRight_eq_div_pow v 7
    obtain ⟨hg, hc⟩ := group_ofNat_add (n := (v % 128).toNat) (by omega)
    rw [hrest] at ih
    rw [writeSigned_eq, if_neg (mt (copiesSign_iff v).mpr h)]
    simp only [Terminated, signedValue, hg, hc, if_true, ih.2]
    exact ⟨ih.1, by omega⟩

/-- No spelling of a number has fewer bytes than the writer's. -/
theorem length_writeSigned_le {bs : List UInt8} (h : Terminated bs) :
    (writeSigned (signedValue bs)).length ≤ bs.length := by
  induction bs with
  | nil => exact h.elim
  | cons b bs ih =>
    have hg := group_lt b
    rw [Terminated] at h
    rw [signedValue]
    by_cases hb : continues b
    · rw [if_pos hb] at h ⊢
      rw [writeSigned_eq]
      split
      · simp
      · have hdiv : ((group b : Int) + 128 * signedValue bs) / 128 = signedValue bs := by omega
        rw [hdiv, List.length_cons, List.length_cons]
        exact Nat.succ_le_succ (ih h)
    · rw [if_neg hb, writeSigned_eq, if_pos (signedGroup_bounds b)]
      simp

/-- A number that fits `k + 1` groups is written with as many bytes at most. -/
theorem length_writeSigned_le_of_lt {v : Int} (hlow : -(64 * 128 ^ k) ≤ v)
    (hhigh : v < 64 * 128 ^ k) : (writeSigned v).length ≤ k + 1 := by
  induction k generalizing v with
  | zero =>
    rw [writeSigned_eq, if_pos (by omega)]
    exact Nat.le_refl 1
  | succ k ih =>
    rw [pow_succ] at hlow hhigh
    rw [writeSigned_eq]
    split
    · simp
    · rw [List.length_cons]
      exact Nat.succ_le_succ (ih (by omega) (by omega))

/-- The writer's spelling is one of each width that holds the number. -/
theorem spelling_writeSigned (hv : Sign.signed.Holds bits v)
    (hlen : (writeSigned v).length ≤ limit bits) : Spelling .signed bits (writeSigned v) v := by
  obtain ⟨hterm, hvalue⟩ := writeSigned_spells v
  exact ⟨hlen, hterm, (signedValue_eq_bmod hterm).symm.trans hvalue, hv⟩

/-- No spelling is shorter than what is written. -/
theorem Spelling.length_writeSigned_le (h : Spelling .signed bits bs v) :
    (writeSigned v).length ≤ bs.length := by
  have hvalue : signedValue bs = v := (signedValue_eq_bmod h.terminated).trans h.value
  rw [← hvalue]
  exact Leb128.length_writeSigned_le h.terminated

end Leb128

namespace Reader

open Leb128

theorem exact_u32 : Exact .unsigned 32 (fun v : UInt32 => (v.toNat : Int)) u32 := by
  refine (exact_unsigned (by decide)).map UInt32.ofNat (fun n hn => ?_) fun v =>
    ⟨v.toNat, UInt32.ofNat_toNat, rfl⟩
  rw [UInt32.toNat_ofNat_of_lt' (by exact_mod_cast hn.2)]

theorem exact_u64 : Exact .unsigned 64 (fun v : UInt64 => (v.toNat : Int)) u64 := by
  refine (exact_unsigned (by decide)).map UInt64.ofNat (fun n hn => ?_) fun v =>
    ⟨v.toNat, UInt64.ofNat_toNat, rfl⟩
  rw [UInt64.toNat_ofNat_of_lt' (by exact_mod_cast hn.2)]

theorem exact_s32 : Exact .signed 32 Int32.toInt s32 :=
  (exact_signed (by decide) (by decide)).map Int32.ofInt
    (fun _ hv => Int32.toInt_ofInt_of_le hv.1 hv.2)
    fun v => ⟨v.toInt, v.ofInt_toInt, rfl⟩

theorem exact_s33 : Exact .signed 33 (fun v : Int => v) s33 :=
  exact_signed (by decide) (by decide)

theorem exact_s64 : Exact .signed 64 Int64.toInt s64 :=
  (exact_signed (by decide) (by decide)).map Int64.ofInt
    (fun _ hv => Int64.toInt_ofInt_of_le hv.1 hv.2)
    fun v => ⟨v.toInt, v.ofInt_toInt, rfl⟩

/-- The readers of integers accept the spellings of a number of their width, and fail on all other
bytes with the error that these deserve. -/
theorem integers_exact :
    Exact .unsigned 32 (fun v : UInt32 => (v.toNat : Int)) u32 ∧
      Exact .unsigned 64 (fun v : UInt64 => (v.toNat : Int)) u64 ∧
      Exact .signed 32 Int32.toInt s32 ∧ Exact .signed 33 (fun v : Int => v) s33 ∧
      Exact .signed 64 Int64.toInt s64 :=
  ⟨exact_u32, exact_u64, exact_s32, exact_s33, exact_s64⟩

end Reader

end Wasm
