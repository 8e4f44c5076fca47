import Mathlib
import Multiprecision.Digits.Checked
import Multiprecision.Proofs.Digits.Shift
import Multiprecision.Proofs.Digits.Sum

/-!
# Multiprecision.Proofs.Digits.Checked

Where the result has room, the checked passes return, and return what the
unchecked ones do:

* `addInto?_eq` — a sum that fits its places leaves no carry;
* `subtract?_eq`, `subtractFrom?_eq` — the smaller number taken from the larger
  one leaves no borrow;
* `moveUpBy?_clear`, `shiftDown?_clear` — digits moved within one list, with
  zeros in the places that they leave, come out as if written to another.

In a sum the induction carries that what is left of the operands still fits; in
a move, that the digits still to be read have not been written.
-/

namespace Multiprecision.Digits

/-! ## Words -/

/-- A sum that fits a word is formed. -/
theorem addWord?_eq {a b : Digit} (h : a.toNat + b.toNat < 2 ^ 32) :
    addWord? a b = some (a + b) := by
  have hsum : (a + b).toNat = a.toNat + b.toNat := by
    rw [UInt32.toNat_add]
    exact Nat.mod_eq_of_lt h
  have hge : ¬ a + b < a := by
    rw [UInt32.lt_iff_toNat_lt, hsum]
    omega
  rw [addWord?, if_neg hge]

/-- A difference is formed if the smaller word is taken away. -/
theorem subtractWord?_eq {a b : Digit} (h : b.toNat ≤ a.toNat) :
    subtractWord? a b = some (a - b) := by
  have hge : ¬ a < b := by
    rw [UInt32.lt_iff_toNat_lt]
    omega
  rw [subtractWord?, if_neg hge]

/-- A digit and a borrow are taken away from a digit without overflow. -/
theorem subtractDigit?_eq {a b c : Digit} (ha : a.toNat < base) (hb : b.toNat < base)
    (hc : c.toNat ≤ 1) : subtractDigit? a b c = some (subtractDigit a b c) := by
  have hbase : base = 1073741824 := rfl
  have htaken : (b + c).toNat = b.toNat + c.toNat := by
    rw [UInt32.toNat_add]
    omega
  unfold subtractDigit? subtractDigit
  rw [addWord?_eq (by omega), Option.bind_eq_bind, Option.bind_some]
  by_cases hle : b + c ≤ a
  · rw [if_pos hle, if_pos hle, subtractWord?_eq (UInt32.le_iff_toNat_le.mp hle)]
    rfl
  · have hup : (a + 0x40000000).toNat = a.toNat + base := by
      rw [UInt32.toNat_add, show (0x40000000 : Digit).toNat = base from rfl]
      omega
    have hfits : a.toNat + (0x40000000 : Digit).toNat < 2 ^ 32 := by
      rw [show (0x40000000 : Digit).toNat = base from rfl]
      omega
    rw [if_neg hle, if_neg hle, addWord?_eq hfits, Option.bind_some,
      subtractWord?_eq (by rw [htaken, hup]; omega)]
    rfl

/-! ## Sums -/

/-- What is left of a sum fits the places that are left. -/
theorem carry_fits {a b c u v p : Nat} (h : a + base * u + (b + base * v) + c < base * p) :
    u + v + (a + b + c) / base < p := by
  have hdm := Nat.mod_add_div (a + b + c) base
  apply Nat.lt_of_mul_lt_mul_left (a := base)
  rw [Nat.mul_add, Nat.mul_add]
  omega

/-- The checked pass of a sum returns if the places have room for the sum. -/
theorem addInto?_eq {as bs : List Digit} (ha : InRange as) (hb : InRange bs)
    (hlen : bs.length ≤ as.length) {c : Digit} (hc : c.toNat ≤ 1)
    (hroom : value as + value bs + c.toNat < base ^ as.length) :
    addInto? as bs c = some (addInto as bs c) := by
  induction as generalizing bs c with
  | nil =>
    obtain rfl : bs = [] := List.length_eq_zero_iff.mp (by simpa using hlen)
    have hzero : c = 0 := toNat_eq_zero_iff.mp (by simpa using hroom)
    simp [addInto?, addInto, hzero]
  | cons a as ih =>
    obtain ⟨ha0, has⟩ := inRange_cons.mp ha
    have hbase : base = 1073741824 := rfl
    rw [List.length_cons, pow_succ'] at hroom
    cases bs with
    | nil =>
      by_cases h0 : c = 0
      · simp [addInto?, addInto, h0]
      · have hsum : (a + c).toNat = a.toNat + 0 + c.toNat := by
          rw [UInt32.toNat_add]
          omega
        have hout : ((a + c) >>> 30).toNat = (a.toNat + 0 + c.toNat) / base := by
          rw [toNat_shiftRight_width, hsum]
        have hrest := ih (c := (a + c) >>> 30) has inRange_nil (Nat.zero_le _)
          (hout ▸ carry_le_one (by omega))
          (hout ▸ carry_fits (v := 0) (by simpa using hroom))
        rw [addInto?, if_neg h0, addWord?_eq (by omega), Option.bind_eq_bind, Option.bind_some,
          hrest, addInto, if_neg h0]
        rfl
    | cons b bs =>
      obtain ⟨hb0, hbs⟩ := inRange_cons.mp hb
      have hsum := toNat_add_digits ha0 hb0 hc
      have hab : (a + b).toNat = a.toNat + b.toNat := by
        rw [UInt32.toNat_add]
        omega
      have hout : ((a + b + c) >>> 30).toNat = (a.toNat + b.toNat + c.toNat) / base := by
        rw [toNat_shiftRight_width, hsum]
      have hrest := ih (c := (a + b + c) >>> 30) has hbs (by simpa using hlen)
        (hout ▸ carry_le_one (by omega)) (hout ▸ carry_fits hroom)
      rw [addInto?, addWord?_eq (by omega), Option.bind_eq_bind, Option.bind_some,
        addWord?_eq (by rw [hab]; omega), Option.bind_some, hrest, addInto]
      rfl

/-! ## Differences -/

/-- What is left of the smaller operand is not above what is left of the larger. -/
theorem borrow_fits {a b c d n u v : Nat} (hdigit : d + b + c = a + base * n) (hd : d < base)
    (h : b + base * v + c ≤ a + base * u) : v + n ≤ u := by
  apply Nat.le_of_lt_succ
  apply Nat.lt_of_mul_lt_mul_left (a := base)
  rw [Nat.mul_add, Nat.mul_succ]
  omega

/-- The checked pass of a difference returns if the smaller number is taken away. -/
theorem subtract?_eq {as bs : List Digit} (ha : InRange as) (hb : InRange bs)
    (hlen : bs.length ≤ as.length) {c : Digit} (hc : c.toNat ≤ 1)
    (hle : value bs + c.toNat ≤ value as) : subtract? as bs c = some (subtract as bs c) := by
  induction as generalizing bs c with
  | nil =>
    obtain rfl : bs = [] := List.length_eq_zero_iff.mp (by simpa using hlen)
    have hzero : c = 0 := toNat_eq_zero_iff.mp (by simpa using hle)
    simp [subtract?, subtract, hzero]
  | cons a as ih =>
    obtain ⟨ha0, has⟩ := inRange_cons.mp ha
    cases bs with
    | nil =>
      by_cases h0 : c = 0
      · simp [subtract?, subtract, h0]
      · obtain ⟨hdigit, hd, hout⟩ := subtractDigit_spec ha0 (b := 0) (by decide) hc
        have hrest := ih has inRange_nil (Nat.zero_le _) hout
          (borrow_fits (v := 0) hdigit hd (by simpa using hle))
        rw [subtract?, if_neg h0, subtractDigit?_eq ha0 (by decide) hc, Option.bind_eq_bind,
          Option.bind_some, hrest, subtract, if_neg h0]
        rfl
    | cons b bs =>
      obtain ⟨hb0, hbs⟩ := inRange_cons.mp hb
      obtain ⟨hdigit, hd, hout⟩ := subtractDigit_spec ha0 hb0 hc
      have hrest := ih has hbs (by simpa using hlen) hout (borrow_fits hdigit hd hle)
      rw [subtract?, subtractDigit?_eq ha0 hb0 hc, Option.bind_eq_bind, Option.bind_some, hrest,
        subtract]
      rfl

/-- So does the pass that writes over the smaller number. -/
theorem subtractFrom?_eq {as bs : List Digit} (ha : InRange as) (hb : InRange bs)
    (hlen : bs.length ≤ as.length) {c : Digit} (hc : c.toNat ≤ 1)
    (hle : value as + c.toNat ≤ value bs) :
    subtractFrom? as bs c = some (subtractFrom as bs c) := by
  induction as generalizing bs c with
  | nil =>
    obtain rfl : bs = [] := List.length_eq_zero_iff.mp (by simpa using hlen)
    have hzero : c = 0 := toNat_eq_zero_iff.mp (by simpa using hle)
    simp [subtractFrom?, subtractFrom, hzero]
  | cons a as ih =>
    obtain ⟨ha0, has⟩ := inRange_cons.mp ha
    cases bs with
    | nil =>
      have hzero : c = 0 := toNat_eq_zero_iff.mp (by simp at hle; omega)
      simp [subtractFrom?, subtractFrom, hzero]
    | cons b bs =>
      obtain ⟨hb0, hbs⟩ := inRange_cons.mp hb
      obtain ⟨hdigit, hd, hout⟩ := subtractDigit_spec hb0 ha0 hc
      have hrest := ih has hbs (by simpa using hlen) hout (borrow_fits hdigit hd hle)
      rw [subtractFrom?, subtractDigit?_eq hb0 ha0 hc, Option.bind_eq_bind, Option.bind_some,
        hrest, subtractFrom]
      rfl

/-! ## Places -/

theorem put?_append (front : List Digit) (d e : Digit) (rest : List Digit) :
    put? (front ++ d :: rest) front.length e = some (front ++ e :: rest) := by
  simp [put?]

theorem clear?_append (as bs cs : List Digit) :
    clear? (as ++ bs ++ cs) as.length bs.length =
      some (as ++ List.replicate bs.length 0 ++ cs) := by
  simp [clear?]

/-! ## Moves up -/

/-- The place that the next digit moves to is the last one of those in front;
the digit may stand in that place or below it. -/
theorem exists_last {front : List Digit} {n places : Nat}
    (hlen : front.length = n + 1 + places) :
    ∃ init last d, front = init ++ [last] ∧ init.length = n + places ∧ front[n]? = some d ∧
      front.take (n + 1) = init.take n ++ [d] ∧ front.take places = init.take places := by
  have hne : front ≠ [] := List.ne_nil_of_length_pos (by omega)
  have hn : n < front.length := by omega
  have hinit : front.dropLast.length = n + places := by
    rw [List.length_dropLast]
    omega
  have hconcat := (List.dropLast_concat_getLast hne).symm
  have htake : ∀ k ≤ n + places, front.take k = front.dropLast.take k := by
    intro k hk
    conv_lhs => rw [hconcat]
    exact List.take_append_of_le_length (hinit ▸ hk)
  refine ⟨front.dropLast, front.getLast hne, front[n], hconcat, hinit,
    List.getElem?_eq_getElem hn, ?_, htake places (by omega)⟩
  rw [← htake n (by omega)]
  exact List.take_succ_eq_append_getElem hn

/-- Digits move up past those that are read later. -/
theorem moveUp?_append {places n : Nat} {front : List Digit} (hlen : front.length = n + places)
    (rest : List Digit) :
    moveUp? places n (front ++ rest) = some (front.take places ++ (front.take n ++ rest)) := by
  induction n generalizing front rest with
  | zero => simp [moveUp?, show front.length = places by omega]
  | succ n ih =>
    obtain ⟨init, last, d, rfl, hinit, hd, htake, hplaces⟩ := exists_last hlen
    have hread : (init ++ [last] ++ rest)[n]? = some d := by
      rwa [List.getElem?_append_left (by omega)]
    have hput : put? (init ++ [last] ++ rest) (n + places) d = some (init ++ d :: rest) := by
      rw [← hinit, List.append_assoc]
      exact put?_append init last d rest
    simp only [moveUp?, hread, hput, Option.bind_eq_bind, Option.bind_some]
    rw [ih hinit, htake, hplaces]
    simp

/-- The high part of the digit below is joined to the lowest digit. -/
theorem exists_shiftUp_low (b : UInt32) (ds : List Digit) (low : Digit) :
    ∃ e es, shiftUp b ds 0 = e :: es ∧ shiftUp b ds low = (e ||| low >>> (30 - b)) :: es := by
  cases ds with
  | nil => exact ⟨0, [], by simp [shiftUp]⟩
  | cons d ds => exact ⟨(d <<< b) &&& mask, shiftUp b ds d, by simp [shiftUp]⟩

/-- Digits move up past those that are read later.  The invariant is that the
digits moved so far, `ts`, have come out as a shift of their own. -/
theorem shiftUp?_append {places n : Nat} (b : UInt32) {front : List Digit}
    (hlen : front.length = n + places) (ts rest : List Digit) :
    shiftUp? places b n (front ++ (shiftUp b ts 0 ++ rest)) =
      some (front.take places ++ (shiftUp b (front.take n ++ ts) 0 ++ rest)) := by
  induction n generalizing front ts with
  | zero => simp [shiftUp?, show front.length = places by omega]
  | succ n ih =>
    obtain ⟨init, last, d, rfl, hinit, hd, htake, hplaces⟩ := exists_last hlen
    obtain ⟨e, es, hzero, hlow⟩ := exists_shiftUp_low b ts d
    have hread : (init ++ [last] ++ (e :: es ++ rest))[n]? = some d := by
      rwa [List.getElem?_append_left (by omega)]
    have habove : (init ++ [last] ++ (e :: es ++ rest))[n + places + 1]? = some e := by
      rw [show n + places + 1 = (init ++ [last]).length by simp [hinit],
        List.getElem?_append_right le_rfl]
      simp
    have hjoin : put? (init ++ [last] ++ (e :: es ++ rest)) (n + places + 1)
        (e ||| d >>> (30 - b)) = some (init ++ [last] ++ (shiftUp b ts d ++ rest)) := by
      rw [show n + places + 1 = (init ++ [last]).length by simp [hinit], hlow]
      exact put?_append (init ++ [last]) e _ (es ++ rest)
    have hput : put? (init ++ [last] ++ (shiftUp b ts d ++ rest)) (n + places)
        ((d <<< b) &&& mask) = some (init ++ (shiftUp b (d :: ts) 0 ++ rest)) := by
      rw [← hinit, List.append_assoc]
      simpa [shiftUp] using put?_append init last ((d <<< b) &&& mask) (shiftUp b ts d ++ rest)
    simp only [shiftUp?, hzero, hread, habove, hjoin, hput, Option.bind_eq_bind, Option.bind_some]
    rw [ih hinit, htake, hplaces]
    simp

theorem length_shiftUp (b : UInt32) (ds : List Digit) (low : Digit) :
    (shiftUp b ds low).length = ds.length + 1 := by
  induction ds generalizing low with
  | nil => rfl
  | cons d ds ih => rw [shiftUp, List.length_cons, ih, List.length_cons]

/-- A shift by no bits opens a place. -/
theorem shiftUp_zero {ds : List Digit} (hds : InRange ds) {low : Digit}
    (hlow : low.toNat < base) : shiftUp 0 ds low = ds ++ [0] := by
  induction ds generalizing low with
  | nil =>
    have hhigh : low >>> 30 = 0 := by
      rw [← toNat_eq_zero_iff, toNat_shiftRight_width]
      exact Nat.div_eq_of_lt hlow
    simpa [shiftUp] using hhigh
  | cons d ds ih =>
    obtain ⟨hd, hds⟩ := inRange_cons.mp hds
    have hjoin : ((d <<< 0) &&& mask) ||| low >>> (30 - 0) = d := by
      rw [← UInt32.toNat_inj, toNat_joinUp d hlow (by decide)]
      simp only [UInt32.toNat_zero, pow_zero, Nat.sub_zero, ← base_eq, Nat.mod_eq_of_lt hd,
        Nat.div_eq_of_lt hlow]
      omega
    rw [shiftUp, hjoin, ih hds hd, List.cons_append]

/-- Digits moved up into zeros. -/
theorem moveUpBy?_append {ds : List Digit} (hds : InRange ds) (places bits r : Nat) :
    moveUpBy? places bits ds.length
        (ds ++ List.replicate places 0 ++ ([0] ++ List.replicate r 0)) =
      some ((ds ++ List.replicate places 0).take places ++
        (shiftUp (UInt32.ofNat bits) ds 0 ++ List.replicate r 0)) := by
  have hfront : (ds ++ List.replicate places 0).length = ds.length + places := by simp
  unfold moveUpBy?
  by_cases haligned : bits = 0
  · rw [if_pos haligned, moveUp?_append hfront, List.take_left, haligned,
      show UInt32.ofNat 0 = 0 from rfl, shiftUp_zero hds (by decide), List.append_assoc]
  · have hpass := shiftUp?_append (UInt32.ofNat bits) hfront [] (List.replicate r 0)
    rw [List.take_left, List.append_nil] at hpass
    rw [if_neg haligned, ← hpass]
    simp [shiftUp]

/-- Digits moved up into zeros, with zeros where they were. -/
theorem moveUpBy?_clear {ds : List Digit} (hds : InRange ds) (places bits r : Nat) :
    ((moveUpBy? places bits ds.length
        (ds ++ List.replicate places 0 ++ ([0] ++ List.replicate r 0))).bind
        fun moved => clear? moved 0 places) =
      some (List.replicate places 0 ++ shiftUp (UInt32.ofNat bits) ds 0 ++
        List.replicate r 0) := by
  have hold : ((ds ++ List.replicate places 0).take places).length = places := by simp
  have hclear := clear?_append [] ((ds ++ List.replicate places 0).take places)
    (shiftUp (UInt32.ofNat bits) ds 0 ++ List.replicate r 0)
  rw [hold, List.nil_append, List.nil_append, List.length_nil] at hclear
  rw [moveUpBy?_append hds, Option.bind_some, hclear, List.append_assoc]

/-! ## Moves down -/

/-- The low bits that the next digit gives to the one below it. -/
theorem shiftDown_cons (b : UInt32) (d : Digit) (ds : List Digit) :
    shiftDown b (d :: ds) =
      (d >>> b ||| if b = 0 then 0 else (ds.headD 0 <<< (30 - b)) &&& mask) ::
        shiftDown b ds := by
  cases ds with
  | nil => simp [shiftDown]
  | cons e ds =>
    by_cases hb : b = 0
    · have hnone : (e <<< 30) &&& mask = 0 := by
        rw [← toNat_eq_zero_iff, toNat_shiftLeft_and_mask e (by decide),
          show width - (30 : UInt32).toNat = 0 from rfl, pow_zero, Nat.mod_one, Nat.mul_zero]
      simp [shiftDown, hb, hnone]
    · simp [shiftDown, hb]

theorem length_shiftDown (b : UInt32) (ds : List Digit) :
    (shiftDown b ds).length = ds.length := by
  induction ds with
  | nil => rfl
  | cons d ds ih => rw [shiftDown_cons, List.length_cons, ih, List.length_cons]

/-- Reserved places above the digits do not show below them. -/
theorem take_shiftDown_append_zeros (b : UInt32) (ds : List Digit) (n : Nat) :
    (shiftDown b (ds ++ List.replicate n 0)).take ds.length = shiftDown b ds := by
  induction ds with
  | nil => simp [shiftDown]
  | cons d ds ih =>
    have hhead : (ds ++ List.replicate n 0).headD 0 = ds.headD 0 := by
      cases ds with
      | nil => cases n <;> simp [List.replicate_succ]
      | cons e ds => rfl
    rw [List.cons_append, shiftDown_cons, shiftDown_cons, hhead, List.length_cons,
      List.take_succ_cons, ih]

/-- Digits move down behind those that are read later: what is read is the
part of the list past `done`, as it was before the move. -/
theorem shiftDown?_append {places todo : Nat} (b : UInt32) (done : List Digit)
    {later : List Digit} (hlen : todo + places ≤ later.length) :
    shiftDown? places b done.length todo (done ++ later) =
      some (done ++ ((shiftDown b (later.drop places)).take todo ++ later.drop todo)) := by
  induction todo generalizing done later with
  | zero => simp [shiftDown?]
  | succ todo ih =>
    cases later with
    | nil => simp at hlen
    | cons a later =>
      rw [List.length_cons] at hlen
      have hplace : places < (a :: later).length := by
        rw [List.length_cons]
        omega
      obtain ⟨d, ds, hdrop⟩ : ∃ d ds, (a :: later).drop places = d :: ds :=
        List.exists_cons_of_length_pos (by rw [List.length_drop]; omega)
      have hread : (done ++ a :: later)[done.length + places]? = some d := by
        rw [List.getElem?_append_right (by omega), Nat.add_sub_cancel_left,
          ← List.head?_drop, hdrop, List.head?_cons]
      have htail : later.drop places = ds := by
        have h := congrArg (List.drop 1) hdrop
        rwa [List.drop_drop, Nat.add_comm, ← List.drop_drop, List.drop_succ_cons,
          List.drop_zero] at h
      have hnext : (done ++ a :: later).drop (done.length + places + 1) = ds := by
        rw [Nat.add_assoc, ← List.drop_drop, List.drop_left, List.drop_succ_cons, htail]
      have hrest := ih (done ++ [d >>> b |||
        if b = 0 then 0 else (ds.headD 0 <<< (30 - b)) &&& mask])
        (show todo + places ≤ later.length by omega)
      rw [htail, List.length_append, List.length_singleton, List.append_assoc,
        List.singleton_append] at hrest
      simp only [shiftDown?, hread, hnext, put?_append, Option.bind_eq_bind, Option.bind_some]
      rw [hrest, hdrop, shiftDown_cons]
      simp

/-- Digits moved down, with zeros in the places that they leave. -/
theorem shiftDown?_clear (b : UInt32) {ds : List Digit} {places : Nat}
    (hplaces : places ≤ ds.length) (r : Nat) :
    ((shiftDown? places b 0 (ds.length - places) (ds ++ List.replicate r 0)).bind
        fun moved => clear? moved (ds.length - places) (ds.length - (ds.length - places))) =
      some (shiftDown b (ds.drop places) ++ List.replicate (places + r) 0) := by
  have hkept : (ds.drop places).length = ds.length - places := List.length_drop
  have hroom : ds.length - places + places ≤ (ds ++ List.replicate r 0).length := by
    rw [List.length_append]
    omega
  have hmoved := shiftDown?_append b [] hroom
  rw [List.length_nil, List.nil_append, List.nil_append,
    List.drop_append_of_le_length hplaces, ← hkept, take_shiftDown_append_zeros,
    List.drop_append_of_le_length (hkept ▸ Nat.sub_le _ _)] at hmoved
  have hlen : (ds.drop (ds.drop places).length).length = places := by
    rw [List.length_drop, hkept]
    omega
  have hclear := clear?_append (shiftDown b (ds.drop places)) (ds.drop (ds.drop places).length)
    (List.replicate r 0)
  rw [hlen, length_shiftDown, List.append_assoc] at hclear
  rw [← hkept, hmoved, Option.bind_some, hkept, Nat.sub_sub_self hplaces, ← hkept, hclear,
    List.append_assoc, List.replicate_append_replicate]

end Multiprecision.Digits
