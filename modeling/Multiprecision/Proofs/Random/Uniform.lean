import Mathlib
import Multiprecision.Random.Stream
import Multiprecision.Proofs.Random
import Multiprecision.Proofs.Digits.Regroup
import Multiprecision.Proofs.Digits.Shift

/-!
# Multiprecision.Proofs.Random.Uniform

No number is drawn more easily than another.  Numbers are counted by the
words that they are made of:

* `ncard_wordsOf` — equally many word lists make each number of `n` bits;
* `below_eq_value_iff` — a draw below a bound goes on to the first number
  that is below it;
* `uniform` — so equally many word lists make each number below the bound,
  whatever the number of draws.

Two of the thirty-two bits of a word are never used, and those of the last
word beyond the `n` bits are not either: the words of a number are counted
digit by digit, and each unused bit doubles them.
-/

namespace Multiprecision.Random

open Digits Integer

/-! ## Counting lists -/

section Counting

variable {α : Type}

/-- Heads and tails are chosen on their own. -/
theorem ncard_image2_cons (heads : Set α) (tails : Set (List α)) :
    (Set.image2 List.cons heads tails).ncard = heads.ncard * tails.ncard := by
  have hinj : Function.Injective (Function.uncurry (List.cons (α := α))) := by
    intro p q h
    obtain ⟨hhead, htail⟩ := List.cons.inj h
    exact Prod.ext hhead htail
  rw [← Set.image_uncurry_prod, Set.ncard_image_of_injective _ hinj, Set.ncard_prod]

/-- The lists of `k` entries out of a set. -/
def listsOf (k : Nat) (entries : Set α) : Set (List α) :=
  {l | l.length = k ∧ ∀ a ∈ l, a ∈ entries}

theorem listsOf_zero (entries : Set α) : listsOf 0 entries = {[]} := by
  ext l
  simp +contextual [listsOf]

/-- A longer list has one more entry in front. -/
theorem listsOf_succ (k : Nat) (entries : Set α) :
    listsOf (k + 1) entries = Set.image2 List.cons entries (listsOf k entries) := by
  ext l
  cases l with
  | nil => simp [listsOf]
  | cons a l => simp [listsOf]; tauto

/-- The lists are counted entry by entry. -/
theorem ncard_listsOf (k : Nat) (entries : Set α) :
    (listsOf k entries).ncard = entries.ncard ^ k := by
  induction k with
  | zero => simp [listsOf_zero]
  | succ k ih => rw [listsOf_succ, ncard_image2_cons, ih, pow_succ']

end Counting

/-! ## Words -/

/-- Equally many words have each number in their low bits. -/
theorem ncard_words_mod {b d : Nat} (hb : b ≤ 32) (hd : d < 2 ^ b) :
    {w : UInt32 | w.toNat % 2 ^ b = d}.ncard = 2 ^ (32 - b) := by
  have hsplit : 2 ^ b * 2 ^ (32 - b) = 2 ^ 32 := by rw [← pow_add, Nat.add_sub_cancel' hb]
  have hlt {j : Nat} (hj : j < 2 ^ (32 - b)) : d + 2 ^ b * j < 2 ^ 32 := by
    calc
      _ < 2 ^ b * (j + 1) := by rw [mul_add, mul_one]; omega
      _ ≤ 2 ^ b * 2 ^ (32 - b) := Nat.mul_le_mul_left _ hj
      _ = 2 ^ 32 := hsplit
  have himage : {w : UInt32 | w.toNat % 2 ^ b = d} =
      (fun j => UInt32.ofNat (d + 2 ^ b * j)) '' Set.Iio (2 ^ (32 - b)) := by
    ext w
    constructor
    · intro hw
      refine ⟨w.toNat / 2 ^ b, ?_, ?_⟩
      · refine Nat.div_lt_of_lt_mul ?_
        rw [hsplit]
        exact w.toNat_lt
      · have hlow : w.toNat % 2 ^ b = d := hw
        change UInt32.ofNat (d + 2 ^ b * (w.toNat / 2 ^ b)) = w
        rw [← hlow, Nat.mod_add_div, UInt32.ofNat_toNat]
    · rintro ⟨j, hj, rfl⟩
      rw [Set.mem_ofPred_eq, UInt32.toNat_ofNat_of_lt' (hlt hj), Nat.add_mul_mod_self_left,
        Nat.mod_eq_of_lt hd]
  rw [himage, Set.InjOn.ncard_image]
  · simp
  · intro i hi j hj h
    have h := congrArg UInt32.toNat h
    rw [UInt32.toNat_ofNat_of_lt' (hlt hi), UInt32.toNat_ofNat_of_lt' (hlt hj)] at h
    exact Nat.eq_of_mul_eq_mul_left (Nat.two_pow_pos b) (Nat.add_left_cancel h)

/-- The word lists that a number of `n` bits is drawn from. -/
def wordLists (n : Nat) : Set (List UInt32) := listsOf (countFor n) Set.univ

/-- The lists of words for `n` bits are those of the right length. -/
@[simp] theorem mem_wordLists {n : Nat} {ws : List UInt32} :
    ws ∈ wordLists n ↔ ws.length = countFor n := by
  simp [wordLists, listsOf]

/-- The lists of words for `n` bits are counted by the bits of their words. -/
theorem ncard_wordLists (n : Nat) : (wordLists n).ncard = 2 ^ (32 * countFor n) := by
  have huniv : (Set.univ : Set UInt32).ncard = 2 ^ 32 := by
    simpa [Nat.mod_one] using ncard_words_mod (b := 0) (d := 0) (by decide) (by decide)
  rw [wordLists, ncard_listsOf, huniv, pow_mul]

/-! ## One number -/

/-- The word lists that make the number `v`. -/
def wordsOf (n v : Nat) : Set (List UInt32) :=
  {ws ∈ wordLists n | (ofWords n ws).toInt = v}

@[simp] theorem toInt_ofWords (n : Nat) (ws : List UInt32) :
    (ofWords n ws).toInt = (ofWords n ws).magnitude := (denotes_ofWords n ws).toInt

theorem mem_wordsOf {n v : Nat} {ws : List UInt32} :
    ws ∈ wordsOf n v ↔ ws.length = countFor n ∧ (ofWords n ws).magnitude = v := by
  simp [wordsOf]

/-- Without any bit there is only zero. -/
theorem magnitude_ofWords_zero (ws : List UInt32) : (ofWords 0 ws).magnitude = 0 := by
  cases ws <;> rfl

/-- The bits of a number shorter than a digit are those of one word. -/
theorem magnitude_ofWords_short {n : Nat} (hpos : n ≠ 0) (hlt : n < width) (w : UInt32)
    (ws : List UInt32) : (ofWords n (w :: ws)).magnitude = w.toNat % 2 ^ n := by
  have hle : 2 ^ n ≤ base := base_eq ▸ Nat.pow_le_pow_right (by decide) hlt.le
  have hmod := Nat.mod_lt w.toNat (Nat.two_pow_pos n)
  simp only [ofWords, ofDigits, magnitude, lowBits, hpos, hlt, if_true, if_false, List.map_cons,
    List.map_nil, value_cons, value_nil, toNat_and_mask, toNat_and_lowMask w hlt]
  rw [Nat.mod_eq_of_lt (hmod.trans_le hle), mul_zero, add_zero]

/-- The first word of a longer number is its lowest digit. -/
theorem magnitude_ofWords_cons {n : Nat} (hge : width ≤ n) (w : UInt32) (ws : List UInt32) :
    (ofWords n (w :: ws)).magnitude =
      w.toNat % base + base * (ofWords (n - width) ws).magnitude := by
  have hpos : n ≠ 0 := (lt_of_lt_of_le (by decide) hge).ne'
  simp only [ofWords, ofDigits, magnitude, lowBits, hpos, not_lt.mpr hge, if_false,
    List.map_cons, value_cons, toNat_and_mask]

/-- A digit and the number above it are those of the whole. -/
theorem add_base_mul_eq_iff {d q v : Nat} (hd : d < base) :
    d + base * q = v ↔ d = v % base ∧ q = v / base := by
  have hunique : v / base = q ∧ v % base = d ↔ d + base * q = v ∧ d < base :=
    Nat.div_mod_unique base_pos
  rw [and_iff_left hd] at hunique
  rw [← hunique, and_comm, eq_comm, eq_comm (a := v / base)]

/-- The words of a number shorter than a digit. -/
theorem wordsOf_short {n : Nat} (hpos : n ≠ 0) (hlt : n < width) (v : Nat) :
    wordsOf n v = Set.image2 List.cons {w | w.toNat % 2 ^ n = v} {[]} := by
  ext ws
  rw [mem_wordsOf, countFor_of_le (Nat.pos_of_ne_zero hpos) hlt.le]
  cases ws with
  | nil => simp
  | cons w ws =>
    rw [magnitude_ofWords_short hpos hlt]
    simp [and_comm]

/-- The words of a longer number: one of its lowest digit, and those of the
number above it. -/
theorem wordsOf_cons {n : Nat} (hge : width ≤ n) (v : Nat) :
    wordsOf n v =
      Set.image2 List.cons {w | w.toNat % 2 ^ width = v % base}
        (wordsOf (n - width) (v / base)) := by
  ext ws
  rw [mem_wordsOf, countFor_cons hge]
  cases ws with
  | nil => simp
  | cons w ws =>
    rw [magnitude_ofWords_cons hge, add_base_mul_eq_iff (Nat.mod_lt _ base_pos), base_eq]
    simp only [List.length_cons, add_left_inj, Set.mem_image2, mem_wordsOf]
    constructor
    · rintro ⟨hlength, hlow, hhigh⟩
      exact ⟨w, hlow, ws, ⟨hlength, hhigh⟩, rfl⟩
    · rintro ⟨w', hlow, ws', ⟨hlength, hhigh⟩, h⟩
      obtain ⟨rfl, rfl⟩ := List.cons.inj h
      exact ⟨hlength, hlow, hhigh⟩

/-- Equally many word lists make each number of `n` bits: the bits of the
words that the number does not use are free. -/
theorem ncard_wordsOf {n v : Nat} (hv : v < 2 ^ n) :
    (wordsOf n v).ncard = 2 ^ (32 * countFor n - n) := by
  have hwidth : width = 30 := rfl
  induction n using Nat.strong_induction_on generalizing v with
  | _ n ih =>
    obtain rfl | hpos := eq_or_ne n 0
    · have hnil : wordsOf 0 v = {[]} := by
        ext ws
        have hcount : countFor 0 = 0 := rfl
        simp [mem_wordsOf, magnitude_ofWords_zero, hcount]
        omega
      rw [hnil, Set.ncard_singleton]
      rfl
    obtain hlt | hge := lt_or_ge n width
    · rw [wordsOf_short hpos hlt, ncard_image2_cons, ncard_words_mod (by omega) hv,
        Set.ncard_singleton, mul_one, countFor_of_le (Nat.pos_of_ne_zero hpos) hlt.le]
    · have hsplit : 2 ^ n = base * 2 ^ (n - width) := by
        rw [base_eq, ← pow_add, Nat.add_sub_cancel' hge]
      have hlow : v % base < 2 ^ width := base_eq ▸ Nat.mod_lt v base_pos
      have hhigh : v / base < 2 ^ (n - width) := Nat.div_lt_of_lt_mul (hsplit ▸ hv)
      rw [wordsOf_cons hge, ncard_image2_cons, ncard_words_mod (by decide) hlow,
        ih (n - width) (by omega) hhigh, ← pow_add, countFor_cons hge]
      have hle := le_width_mul_countFor (n - width)
      rw [hwidth] at hle hge ⊢
      congr 1
      omega

/-- No number of more than `n` bits is made. -/
theorem magnitude_ofWords_lt (n : Nat) (ws : List UInt32) :
    (ofWords n ws).magnitude < 2 ^ n := by
  have hwidth : width = 30 := rfl
  induction ws generalizing n with
  | nil => exact Nat.two_pow_pos n
  | cons w ws ih =>
    obtain rfl | hpos := eq_or_ne n 0
    · exact Nat.one_pos
    obtain hlt | hge := lt_or_ge n width
    · rw [magnitude_ofWords_short hpos hlt]
      exact Nat.mod_lt _ (Nat.two_pow_pos n)
    · rw [magnitude_ofWords_cons hge, base_eq]
      have hsplit : 2 ^ n = 2 ^ width * 2 ^ (n - width) := by
        rw [← pow_add, Nat.add_sub_cancel' hge]
      have hmod := Nat.mod_lt w.toNat (Nat.two_pow_pos width)
      calc
        _ < 2 ^ width * ((ofWords (n - width) ws).magnitude + 1) := by
          rw [mul_add, mul_one]
          omega
        _ ≤ 2 ^ width * 2 ^ (n - width) := Nat.mul_le_mul_left _ (ih (n - width))
        _ = 2 ^ n := hsplit.symm

/-! ## Numbers that are not below a bound -/

/-- The word lists that make a number that is not below `u`. -/
def wordsFrom (n u : Nat) : Set (List UInt32) :=
  {ws ∈ wordLists n | (u : Int) ≤ (ofWords n ws).toInt}

theorem finite_wordLists (n : Nat) : (wordLists n).Finite := by
  refine Set.finite_of_ncard_pos ?_
  rw [ncard_wordLists]
  exact Nat.two_pow_pos _

/-- Each number takes its word lists away from those that are left. -/
theorem wordsFrom_succ (n u : Nat) : wordsFrom n (u + 1) = wordsFrom n u \ wordsOf n u := by
  ext ws
  simp only [wordsFrom, wordsOf, Set.mem_ofPred_eq, Set.mem_sdiff]
  grind

/-- Lists that make `u` make no less. -/
theorem wordsOf_subset_wordsFrom (n u : Nat) : wordsOf n u ⊆ wordsFrom n u :=
  fun _ h => ⟨h.1, h.2.ge⟩

/-- The lists that make `u` or more are those that are left over by the values
below. -/
theorem ncard_wordsFrom {n u : Nat} (hu : u ≤ 2 ^ n) :
    (wordsFrom n u).ncard = 2 ^ (32 * countFor n) - u * 2 ^ (32 * countFor n - n) := by
  induction u with
  | zero =>
    have hall : wordsFrom n 0 = wordLists n := by
      ext ws
      simp [wordsFrom]
    rw [hall, ncard_wordLists, zero_mul, Nat.sub_zero]
  | succ u ih =>
    have hfinite : (wordsOf n u).Finite := (finite_wordLists n).subset fun _ h => h.1
    rw [wordsFrom_succ, Set.ncard_sdiff (wordsOf_subset_wordsFrom n u) hfinite, ih (by omega),
      ncard_wordsOf (by omega), Nat.sub_sub,
      Nat.succ_mul u]

/-! ## Draws of a stream -/

section Draws

variable {σ : Type} [ByteSource σ]

/-- Words can always be drawn. -/
theorem exists_words (c : Nat) (s : σ) :
    ∃ ws s', (words c).run s = .value (ws, s') ∧ ws.length = c := by
  induction c generalizing s with
  | zero => exact ⟨[], s, rfl, rfl⟩
  | succ c ih =>
    obtain ⟨w, s₁, hw⟩ : ∃ w s₁, (word : Draw σ UInt32).run s = .value (w, s₁) := ⟨_, _, rfl⟩
    obtain ⟨ws, s₂, hws, hlength⟩ := ih s₁
    refine ⟨w :: ws, s₂, ?_, congrArg (· + 1) hlength⟩
    rw [words, StateT.run_bind, hw, Outcome.value_bind, StateT.run_bind, hws]
    rfl

/-- A number is what its words make. -/
theorem bits_eq_value {n : Nat} {s s' : σ} {ws : List UInt32}
    (h : (words (countFor n)).run s = .value (ws, s')) :
    (bits n).run s = .value (ofWords n ws, s') := by
  rw [bits, StateT.run_bind, h]
  rfl

/-- Numbers of `n` bits are drawn one after the other from the words `wss`,
which takes the stream from `s` to `s'`. -/
inductive Sampled (n : Nat) : (s : σ) → List (List UInt32) → (s' : σ) → Prop
  | nil (s : σ) : Sampled n s [] s
  | cons {s s' s'' : σ} {ws : List UInt32} {wss : List (List UInt32)} :
    (words (countFor n)).run s = .value (ws, s') → Sampled n s' wss s'' →
      Sampled n s (ws :: wss) s''

/-- What is drawn first is what the stream has first. -/
theorem sampled_cons_iff {n : Nat} {s s₁ s' : σ} {first ws : List UInt32}
    {wss : List (List UInt32)} (h : (words (countFor n)).run s = .value (first, s₁)) :
    Sampled n s (ws :: wss) s' ↔ ws = first ∧ Sampled n s₁ wss s' := by
  constructor
  · rintro (_ | ⟨hws, hwss⟩)
    obtain ⟨rfl, rfl⟩ := Prod.mk.inj (Outcome.value.inj (hws.symm.trans h))
    exact ⟨rfl, hwss⟩
  · rintro ⟨rfl, hwss⟩
    exact .cons h hwss

/-- Nothing is drawn exactly if the source stays as it is. -/
theorem sampled_nil_iff {n : Nat} {s s' : σ} : Sampled n s [] s' ↔ s = s' := by
  constructor
  · rintro ⟨⟩
    rfl
  · rintro rfl
    exact .nil s

/-- A number is drawn again until one is accepted. -/
theorem untilAccepted_eq_value_iff {n : Nat} {accept : Integer → Bool} {attempts : Nat} {s : σ}
    {x : Integer} {s' : σ} :
    (untilAccepted n accept attempts).run s = .value (x, s') ↔
      ∃ refused ws, refused.length < attempts ∧ Sampled n s (refused ++ [ws]) s' ∧
        (∀ r ∈ refused, accept (ofWords n r) = false) ∧ accept (ofWords n ws) = true ∧
        ofWords n ws = x := by
  induction attempts generalizing s with
  | zero => simp [untilAccepted, StateT.run]
  | succ attempts ih =>
    obtain ⟨first, s₁, hfirst, -⟩ := exists_words (countFor n) s
    rw [untilAccepted, StateT.run_bind, bits_eq_value hfirst, Outcome.value_bind]
    cases haccept : accept (ofWords n first) with
    | true =>
      -- Nothing can be refused before: the first number is accepted.
      constructor
      · intro h
        obtain ⟨rfl, rfl⟩ := Prod.mk.inj (Outcome.value.inj h)
        exact ⟨[], first, Nat.succ_pos _, .cons hfirst (.nil _), by simp, haccept, rfl⟩
      · rintro ⟨refused, ws, -, hsampled, hrefused, -, rfl⟩
        cases refused with
        | nil =>
          obtain ⟨rfl, hend⟩ := (sampled_cons_iff hfirst).mp hsampled
          obtain rfl := sampled_nil_iff.mp hend
          rfl
        | cons r refused =>
          obtain ⟨rfl, -⟩ := (sampled_cons_iff hfirst).mp hsampled
          exact absurd (hrefused _ List.mem_cons_self) (by simp [haccept])
    | false =>
      refine Iff.trans ih ?_
      constructor
      · rintro ⟨refused, ws, hlength, hsampled, hrefused, hws⟩
        refine ⟨first :: refused, ws, by simpa using hlength, .cons hfirst hsampled, ?_, hws⟩
        exact List.forall_mem_cons.mpr ⟨haccept, hrefused⟩
      · rintro ⟨refused, ws, hlength, hsampled, hrefused, hws, hx⟩
        cases refused with
        | nil =>
          obtain ⟨rfl, -⟩ := (sampled_cons_iff hfirst).mp hsampled
          exact absurd hws (by simp [haccept])
        | cons r refused =>
          obtain ⟨rfl, hsampled⟩ := (sampled_cons_iff hfirst).mp hsampled
          refine ⟨refused, ws, by simpa using hlength, hsampled, ?_, hws, hx⟩
          exact (List.forall_mem_cons.mp hrefused).2

variable {bound : Integer} {u : Nat}

/-- The draw below a bound is the first number of the stream that is below
it, and takes no more of the stream. -/
theorem below_eq_value_iff (hbound : bound.Denotes u) (hu : 0 < u) {attempts : Nat} {s : σ}
    {x : Integer} {s' : σ} :
    (below attempts bound).run s = .value (x, s') ↔
      ∃ refused ws, refused.length < attempts ∧
        Sampled bound.bitLength s (refused ++ [ws]) s' ∧
        (∀ r ∈ refused, u ≤ (ofWords bound.bitLength r).toInt) ∧
        ofWords bound.bitLength ws = x ∧ 0 ≤ x.toInt ∧ x.toInt < u := by
  have hbelow (ws : List UInt32) :
      (ofWords bound.bitLength ws).below bound = true ↔
        (ofWords bound.bitLength ws).toInt < u := by
    rw [(denotes_ofWords _ ws).below_iff hbound, toInt_ofWords]
    simp
  have hnot (ws : List UInt32) :
      (ofWords bound.bitLength ws).below bound = false ↔
        (u : Int) ≤ (ofWords bound.bitLength ws).toInt := by
    rw [← not_lt, ← hbelow, Bool.not_eq_true]
  rw [below, if_pos (hbound.isPositive_iff.mpr (by exact_mod_cast hu)),
    untilAccepted_eq_value_iff]
  simp only [hbelow, hnot]
  refine exists_congr fun refused => exists_congr fun ws => ?_
  refine and_congr_right fun _ => and_congr_right fun _ => and_congr_right fun _ => ?_
  constructor
  · rintro ⟨hlt, rfl⟩
    exact ⟨rfl, by simp, hlt⟩
  · rintro ⟨rfl, -, hlt⟩
    exact ⟨hlt, rfl⟩

end Draws

/-! ## Every list of words is drawn from some stream -/

/-- The bytes of a word, low byte first. -/
def wordBytes (w : UInt32) : List UInt8 :=
  [w.toUInt8, (w >>> 8).toUInt8, (w >>> 16).toUInt8, (w >>> 24).toUInt8]

/-- A byte of a word that is put into its place. -/
theorem toNat_byte_shiftLeft (w : UInt32) {k : UInt32} {n : Nat} (hk : k.toNat = n)
    (hn : n ≤ 24) : (w.toUInt8.toUInt32 <<< k).toNat = (w.toNat % 2 ^ 8) <<< n := by
  have hlow : w.toNat % 2 ^ 8 < 2 ^ 8 := Nat.mod_lt _ (by decide)
  have hfits : w.toNat % 2 ^ 8 * 2 ^ n < 2 ^ 32 := by
    calc
      _ < 2 ^ 8 * 2 ^ n := Nat.mul_lt_mul_of_pos_right hlow (Nat.two_pow_pos n)
      _ ≤ 2 ^ 8 * 2 ^ 24 := Nat.mul_le_mul_left _ (Nat.pow_le_pow_right (by decide) hn)
  rw [UInt32.toNat_shiftLeft, UInt8.toNat_toUInt32, UInt32.toNat_toUInt8, hk,
    Nat.mod_eq_of_lt (by omega : n < 32), Nat.shiftLeft_eq, Nat.mod_eq_of_lt hfits]

/-- Each byte is joined above those below it. -/
theorem join_wordBytes (w : UInt32) :
    w.toUInt8.toUInt32 ||| (w >>> 8).toUInt8.toUInt32 <<< 8 |||
      (w >>> 16).toUInt8.toUInt32 <<< 16 ||| (w >>> 24).toUInt8.toUInt32 <<< 24 = w := by
  have hlt := w.toNat_lt
  have h8 : (w >>> 8).toNat = w.toNat / 2 ^ 8 := Nat.shiftRight_eq_div_pow _ 8
  have h16 : (w >>> 16).toNat = w.toNat / 2 ^ 16 := Nat.shiftRight_eq_div_pow _ 16
  have h24 : (w >>> 24).toNat = w.toNat / 2 ^ 24 := Nat.shiftRight_eq_div_pow _ 24
  have hone : w.toUInt8.toUInt32.toNat = w.toNat % 2 ^ 8 := rfl
  have htwo : w.toNat % 2 ^ 8 ||| (w.toNat / 2 ^ 8 % 2 ^ 8) <<< 8 = w.toNat % 2 ^ 16 := by
    rw [or_shiftLeft_eq (by omega)]
    omega
  have hthree : w.toNat % 2 ^ 16 ||| (w.toNat / 2 ^ 16 % 2 ^ 8) <<< 16 = w.toNat % 2 ^ 24 := by
    rw [or_shiftLeft_eq (by omega)]
    omega
  have hfour : w.toNat % 2 ^ 24 ||| (w.toNat / 2 ^ 24 % 2 ^ 8) <<< 24 = w.toNat := by
    rw [or_shiftLeft_eq (by omega)]
    omega
  apply UInt32.toNat_inj.mp
  rw [UInt32.toNat_or, UInt32.toNat_or, UInt32.toNat_or, hone,
    toNat_byte_shiftLeft _ (show UInt32.toNat 8 = 8 from rfl) (by decide),
    toNat_byte_shiftLeft _ (show UInt32.toNat 16 = 16 from rfl) (by decide),
    toNat_byte_shiftLeft _ (show UInt32.toNat 24 = 24 from rfl) (by decide), h8, h16, h24,
    htwo, hthree, hfour]

/-- Words whose bytes are given in advance are drawn as they are. -/
theorem run_words_given (ws : List UInt32) (rest : List UInt8) (generator : Generator)
    (taken : Nat) :
    (words ws.length).run (⟨ws.flatMap wordBytes ++ rest, generator, taken⟩ : Stream) =
      .value (ws, ⟨rest, generator, taken + 4 * ws.length⟩) := by
  induction ws generalizing taken with
  | nil => rfl
  | cons w ws ih =>
    have hword : (word : Draw Stream UInt32).run
          ⟨wordBytes w ++ (ws.flatMap wordBytes ++ rest), generator, taken⟩ =
        .value (w, ⟨ws.flatMap wordBytes ++ rest, generator, taken + 4⟩) := by
      conv_rhs => rw [← join_wordBytes w]
      rfl
    rw [List.length_cons, words, StateT.run_bind, List.flatMap_cons, List.append_assoc, hword,
      Outcome.value_bind, StateT.run_bind, ih]
    have hfour : taken + 4 + 4 * ws.length = taken + 4 * (ws.length + 1) := by omega
    rw [hfour]
    rfl

/-- The bytes that are taken are those of the words. -/
theorem sampled_given {n : Nat} {wss : List (List UInt32)} (h : ∀ ws ∈ wss, ws ∈ wordLists n)
    (rest : List UInt8) (generator : Generator) (taken : Nat) :
    Sampled n (⟨wss.flatten.flatMap wordBytes ++ rest, generator, taken⟩ : Stream) wss
      ⟨rest, generator, taken + 4 * (countFor n * wss.length)⟩ := by
  induction wss generalizing taken with
  | nil => exact .nil _
  | cons ws wss ih =>
    obtain ⟨hws, hwss⟩ := List.forall_mem_cons.mp h
    rw [mem_wordLists] at hws
    have hfirst := run_words_given ws (wss.flatten.flatMap wordBytes ++ rest) generator taken
    have htaken : taken + 4 * (countFor n * (wss.length + 1)) =
        taken + 4 * ws.length + 4 * (countFor n * wss.length) := by
      rw [hws]
      ring
    rw [List.flatten_cons, List.flatMap_append, List.append_assoc, List.length_cons, htaken]
    exact .cons (hws ▸ hfirst) (ih hwss _)

/-! ## Uniformity -/

section Uniform

variable {σ : Type} [ByteSource σ] {bound : Integer} {u : Nat}

/-- Numbers of `n` bits are made of as many words as they have digits, and
equally many word lists make each of them.  Every list of them is drawn from
some stream of bytes.  A draw below a bound is the first number of the stream
that is below it, so that for any number of refusals equally many word lists
make each number below the bound. -/
theorem uniform (hbound : bound.Denotes u) (hu : 0 < u) :
    (∀ n,
      (∀ s : σ, ∃ ws ∈ wordLists n, ∃ s', (words (countFor n)).run s = .value (ws, s') ∧
        (bits n).run s = .value (ofWords n ws, s')) ∧
      (wordLists n).ncard = 2 ^ (32 * countFor n) ∧
      (∀ v < 2 ^ n, (wordsOf n v).ncard = 2 ^ (32 * countFor n - n)) ∧
      ∀ ws ∈ wordLists n, ∃ v : Nat, v < 2 ^ n ∧ (ofWords n ws).Denotes v) ∧
    (∀ n wss, (∀ ws ∈ wss, ws ∈ wordLists n) → ∀ rest generator taken,
      Sampled n (⟨wss.flatten.flatMap wordBytes ++ rest, generator, taken⟩ : Stream) wss
        ⟨rest, generator, taken + 4 * (countFor n * wss.length)⟩) ∧
    (∀ (attempts : Nat) (s : σ) (x : Integer) (s' : σ),
      (below attempts bound).run s = .value (x, s') ↔
        ∃ refused ws, refused.length < attempts ∧
          Sampled bound.bitLength s (refused ++ [ws]) s' ∧
          (∀ r ∈ refused, u ≤ (ofWords bound.bitLength r).toInt) ∧
          ofWords bound.bitLength ws = x ∧ 0 ≤ x.toInt ∧ x.toInt < u) ∧
    ∀ k, ∀ v < u,
      (listsOf k (wordsFrom bound.bitLength u) ×ˢ wordsOf bound.bitLength v).ncard =
        (2 ^ (32 * countFor bound.bitLength) -
            u * 2 ^ (32 * countFor bound.bitLength - bound.bitLength)) ^ k *
          2 ^ (32 * countFor bound.bitLength - bound.bitLength) := by
  -- The bound itself is a number of as many bits as it has.
  have hlt : u < 2 ^ bound.bitLength := by
    rw [hbound.bitLength]
    exact Nat.lt_size_self u
  refine ⟨fun n => ⟨fun s => ?_, ncard_wordLists n, fun v => ncard_wordsOf, fun ws _ => ?_⟩,
    fun n wss => sampled_given, fun _ _ _ _ => below_eq_value_iff hbound hu, fun k v hv => ?_⟩
  · obtain ⟨ws, s', hws, hlength⟩ := exists_words (countFor n) s
    exact ⟨ws, mem_wordLists.mpr hlength, s', hws, bits_eq_value hws⟩
  · exact ⟨_, magnitude_ofWords_lt n ws, denotes_ofWords n ws⟩
  · rw [Set.ncard_prod, ncard_listsOf, ncard_wordsFrom hlt.le, ncard_wordsOf (hv.trans hlt)]

/-- Below five: a seven is refused and a three is taken, and after any two
refusals a four comes of as many words as any other number. -/
theorem uniform_five :
    Denotes ⟨false, [5]⟩ (5 : Nat) ∧ 0 < 5 ∧
    (below 2 ⟨false, [5]⟩).run (⟨[7, 0, 0, 0, 3, 0, 0, 0], ⟨0⟩, 0⟩ : Stream) =
      .value (⟨false, [3]⟩, ⟨[], ⟨0⟩, 8⟩) ∧
    (listsOf 2 (wordsFrom 3 5) ×ˢ wordsOf 3 4).ncard = (2 ^ 32 - 5 * 2 ^ 29) ^ 2 * 2 ^ 29 := by
  have hfive : Denotes ⟨false, [5]⟩ (5 : Nat) :=
    ⟨by simp [Canonical, Digits.base, Digits.isZero], by decide⟩
  obtain ⟨-, -, hbelow, hcount⟩ := uniform (σ := Stream) hfive (by decide)
  refine ⟨hfive, by decide, (hbelow 2 _ _ _).mpr ?_, hcount 2 4 (by decide)⟩
  refine ⟨[[7]], [3], by decide, ?_, by decide, by decide, by decide, by decide⟩
  exact .cons rfl (.cons rfl (.nil _))

end Uniform

end Multiprecision.Random
