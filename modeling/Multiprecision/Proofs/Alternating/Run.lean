import Mathlib
import Multiprecision.Alternating.Action
import Multiprecision.Proofs.Alternating
import Multiprecision.Proofs.Workspace

/-!
# Multiprecision.Proofs.Alternating.Run

Runs of two buffers, beside the same runs over the integers:

* `act_yields` — one action makes of the current value what it makes of the
  integer, one case per action, whatever the idle buffer holds;
* `follow_yields` — so does a whole run, by induction on its actions;
* `act_failed` — an action without a result leaves the current buffer as it is;
* `follow_denotes` — the results of a run are those over the integers, and an
  action that failed could as well be left out.

The invariant is only that the buffers hold canonical integers.  Nothing is
known of the idle buffer beyond that, so what an action leaves there cannot
show in a later one.
-/

namespace Multiprecision.Alternating

open Integer Outcome

variable {p q : Alternating} {x y : Integer} {i j : Int} {depth : Nat}

/-! ## Actions over the buffers and over the integers -/

/-- The writer makes what `g` makes of the current value, whatever the idle
buffer held.  If it fails, it may leave anything there. -/
def Overwrites (f : Writer) (g : Int → Except Error Int) : Prop :=
  ∀ {x idle : Integer} {i : Int}, x.Denotes i → idle.Canonical →
    match f x idle with
    | (z, .value ()) => ∃ j, g i = .ok j ∧ z.Denotes j
    | (z, .failure e) => g i = .error e ∧ z.Canonical
    | (_, .aborted) | (_, .exhausted) => True

/-- The same action over the buffers and over the integers. -/
inductive Stands : Action Integer Writer → Action Int (Int → Except Error Int) → Prop where
  | mul {y : Integer} {j : Int} : y.Denotes j → Stands (.mul y) (.mul j)
  | square : Stands .square .square
  | rem {m : Integer} {j : Int} : m.Denotes j → Stands (.rem m) (.rem j)
  | reserveBits (bits : Nat) : Stands (.reserveBits bits) (.reserveBits bits)
  | reserveBitsAfter (writes bits : Nat) :
      Stands (.reserveBitsAfter writes bits) (.reserveBitsAfter writes bits)
  | copy : Stands .copy .copy
  | write {f : Writer} {g : Int → Except Error Int} : Overwrites f g → Stands (.write f) (.write g)

/-- A result that is an integer, or the same error. -/
inductive Agrees : Except Error Integer → Except Error Int → Prop where
  | ok {y : Integer} {j : Int} : y.Denotes j → Agrees (.ok y) (.ok j)
  | error (e : Error) : Agrees (.error e) (.error e)

/-- Equal integers, or the same error. -/
inductive Same : Except Error Integer → Except Error Integer → Prop where
  | ok {y z : Integer} : y.equals z = true → Same (.ok y) (.ok z)
  | error (e : Error) : Same (.error e) (.error e)

/-- Results that agree with the same integer are the same. -/
theorem Agrees.same {r s : Except Error Integer} {v : Except Error Int} (hr : Agrees r v)
    (hs : Agrees s v) : Same r s := by
  cases hr with
  | ok hy => cases hs with
    | ok hz => exact .ok ((hy.equals_iff hz).mpr rfl)
  | error e => cases hs with
    | error => exact .error e

/-- Taking the pair apart gives the current value. -/
theorem toInteger_eq_current (p : Alternating) : p.toInteger = p.current := by
  cases h : p.swapped <;> simp [toInteger, current, h]

/-- Filling the idle buffer leaves the current one alone. -/
@[simp] theorem current_setIdle (p : Alternating) (x : Integer) :
    (p.setIdle x).current = p.current := by
  unfold setIdle
  split
  · next h => simp [current, h]
  · next h => simp [current, h]

/-! ## One action -/

/-- A writer without a result has written the idle buffer only. -/
theorem write_failed {f : Writer} (h : (p.write f).2 ≠ .value ()) :
    (p.write f).1.current = p.current := by
  unfold write at h ⊢
  generalize f p.current p.idle = written at h ⊢
  obtain ⟨z, o⟩ := written
  cases o with
  | value u => exact absurd rfl h
  | failure e => exact current_setIdle p z
  | aborted => exact current_setIdle p z
  | exhausted => exact current_setIdle p z

/-- An action without a result leaves the current buffer as it is, digit by
digit. -/
theorem act_failed {A : Arithmetic} {a : Action Integer Writer}
    (h : (p.act A a).2 ≠ .value ()) : (p.act A a).1.current = p.current := by
  cases a with
  | mul y => exact write_failed h
  | square => exact write_failed h
  | write f => exact write_failed h
  | rem m =>
    simp only [act, rem] at h ⊢
    split at h
    · exact absurd rfl h
    all_goals rfl
  | reserveBits bits => exact absurd rfl h
  | reserveBitsAfter writes bits => exact absurd rfl h
  | copy => exact absurd rfl h

/-- What is known after an action that makes `v` of the integer `i`. -/
structure After (i : Int) (v : Except Error Int) (q : Alternating)
    (result : Except Error Integer) : Prop where
  canonical : q.Canonical
  current : q.current.Denotes (match v with | .ok j => j | .error _ => i)
  result : Agrees result v

/-- An action that ends with a result and nothing else. -/
theorem returned_yields {result : Alternating × Outcome Unit} (hcanonical : result.1.Canonical)
    (h : (orFail result).Yields .unfailing (·.current.Denotes j)) :
    (returned result).Yields .unfailing fun (q, r) => After i (.ok j) q r := by
  obtain ⟨q, o⟩ := result
  cases o with
  | value u => exact ⟨hcanonical, h, .ok h⟩
  | failure e => exact h.elim
  | aborted => trivial
  | exhausted => trivial

/-- A writer makes of the current value what it makes of the integer, whatever
the idle buffer held; if it fails, the turns do not change. -/
theorem write_yields {f : Writer} {g : Int → Except Error Int} (hf : Overwrites f g)
    (hp : p.Canonical) (hi : p.current.Denotes i) :
    (returned (p.write f)).Yields .unfailing fun (q, r) => After i (g i) q r := by
  have hwritten := hf hi hp.idle
  unfold write
  generalize f p.current p.idle = written at hwritten
  obtain ⟨z, o⟩ := written
  cases o with
  | value u =>
    obtain ⟨j, hj, hz⟩ := hwritten
    have hq : ((p.setIdle z).swap).current.Denotes j := by rwa [current_swap_setIdle]
    rw [hj]
    exact ⟨(hp.setIdle hz.canonical).swap, hq, .ok hq⟩
  | failure e =>
    obtain ⟨he, hz⟩ := hwritten
    have hq : (p.setIdle z).current.Denotes i := by rwa [current_setIdle]
    rw [he]
    exact ⟨hp.setIdle hz, hq, .error e⟩
  | aborted => trivial
  | exhausted => trivial

/-- An action that stands for a step leaves the buffers canonical, as the step
does. -/
theorem act_canonical (t : Thresholds) (depth : Nat) (hp : p.Canonical) {s : Step Integer}
    (hs : s.Canonical) : (p.act (.ofThresholds t depth) s.action).1.Canonical := by
  rw [act_action]
  exact step_canonical t depth hp hs

/-- One action makes of the current value what it makes of the integer. -/
theorem act_yields (t : Thresholds) (hp : p.Canonical) (hi : p.current.Denotes i)
    {a : Action Integer Writer} {b : Action Int (Int → Except Error Int)} (h : Stands a b) :
    (returned (p.act (.ofThresholds t depth) a)).Yields .unfailing
      fun (q, r) => After i (b.value i) q r := by
  have hA := Arithmetic.ofThresholds_exact t depth
  cases h with
  | mul hy =>
    exact returned_yields (act_canonical t depth hp (s := .mul _) hy.canonical)
      (mul_yields hA hi hy)
  | square =>
    exact returned_yields (act_canonical t depth hp (s := .square) trivial)
      (square_yields hA hi)
  | @rem m j hm =>
    have hcanonical := act_canonical t depth hp (s := .rem _) hm.canonical
    by_cases hj : j = 0
    · have hzero : m.isZero = true := hm.isZero_iff.mpr hj
      have hfail : p.rem (.ofThresholds t depth) m =
          ({ p with scratch := p.current.compact }, .failure .divideByZero) := by
        simp only [rem, hA.divide_zero hzero]
      have hvalue : Action.value i (.rem j) = .error .divideByZero := if_pos hj
      rw [hvalue]
      simp only [act, hfail, returned]
      rw [Step.action, act, hfail] at hcanonical
      exact ⟨hcanonical, hi, .error _⟩
    · have hvalue : Action.value i (.rem j) = .ok (i % j) := if_neg hj
      rw [hvalue]
      exact returned_yields hcanonical (rem_yields hA hi hm hj)
  | reserveBits bits =>
    exact returned_yields (act_canonical t depth hp (s := .reserveBits bits) trivial)
      (reserveBits_denotes hi bits)
  | reserveBitsAfter writes bits =>
    exact returned_yields (act_canonical t depth hp (s := .reserveBitsAfter writes bits) trivial)
      (reserveBitsAfter_denotes hi writes bits)
  | copy => exact ⟨hp, hi, .ok hi⟩
  | write hf => exact write_yields hf hp hi

/-! ## Runs -/

/-- The same actions, each under its own thresholds over the buffers. -/
def Runs (steps : List (Thresholds × Action Integer Writer))
    (actions : List (Action Int (Int → Except Error Int))) : Prop :=
  List.Forall₂ (fun s a => Stands s.2 a) steps actions

variable {steps : List (Thresholds × Action Integer Writer)}
  {actions : List (Action Int (Int → Except Error Int))}

/-- A run makes of the current value what it makes of the integer. -/
theorem follow_yields (h : Runs steps actions) (hp : p.Canonical) (hi : p.current.Denotes i) :
    (follow depth steps p).Yields .unfailing fun (q, results) =>
      q.current.Denotes (actions.foldl Action.next i) ∧
        List.Forall₂ Agrees results (Action.values actions i) := by
  induction h generalizing p i with
  | nil => exact ⟨hi, .nil⟩
  | @cons s a steps actions hs _ ih =>
    refine (act_yields s.1 hp hi hs).bind fun (q, r) hq => ?_
    refine (ih hq.canonical hq.current).bind fun (q', results) ⟨hfinal, hresults⟩ => ?_
    exact ⟨hfinal, .cons hq.result hresults⟩

/-- What stands beside two lists in a row is cut where they meet. -/
theorem exists_of_forall₂_append {α β : Type} {R : α → β → Prop} {as bs : List α} {cs : List β}
    (h : List.Forall₂ R (as ++ bs) cs) :
    ∃ cs₁ cs₂, cs = cs₁ ++ cs₂ ∧ List.Forall₂ R as cs₁ ∧ List.Forall₂ R bs cs₂ :=
  ⟨cs.take as.length, cs.drop as.length, (List.take_append_drop _ _).symm,
    (List.forall₂_take_append cs as bs h.flip).flip,
    (List.forall₂_drop_append cs as bs h.flip).flip⟩

theorem values_append (as bs : List (Action Int (Int → Except Error Int))) (i : Int) :
    Action.values (as ++ bs) i =
      Action.values as i ++ Action.values bs (as.foldl Action.next i) := by
  induction as generalizing i with
  | nil => rfl
  | cons a as ih => simp [Action.values, ih]

theorem length_values (as : List (Action Int (Int → Except Error Int))) (i : Int) :
    (Action.values as i).length = as.length := by
  induction as generalizing i with
  | nil => rfl
  | cons a as ih => simp [Action.values, ih]

/-- An action that fails makes nothing of the integer. -/
theorem next_of_error {a : Action Int (Int → Except Error Int)} {e : Error}
    (h : a.value i = .error e) : a.next i = i := by
  simp [Action.next, h]

/-- Runs that agree with the same results are the same. -/
theorem forall₂_same {rs ss : List (Except Error Integer)} {vs : List (Except Error Int)}
    (hr : List.Forall₂ Agrees rs vs) (hs : List.Forall₂ Agrees ss vs) :
    List.Forall₂ Same rs ss := by
  induction hr generalizing ss with
  | nil => cases hs; exact .nil
  | cons hr _ ih =>
    cases hs with
    | cons hs hss => exact .cons (hr.same hs) (ih hss)

/-- An action that fails makes no difference to the integers after it. -/
theorem values_of_failed {before after : List (Action Int (Int → Except Error Int))}
    {a : Action Int (Int → Except Error Int)} {results₁ results₂ : List (Except Error Integer)}
    {e : Error} (hlength : results₁.length = before.length)
    (h : List.Forall₂ Agrees (results₁ ++ .error e :: results₂)
      (Action.values (before ++ a :: after) i)) :
    List.Forall₂ Agrees (results₁ ++ results₂) (Action.values (before ++ after) i) ∧
      (before ++ a :: after).foldl Action.next i = (before ++ after).foldl Action.next i := by
  obtain ⟨vs₁, vs₂, hvs, hbefore, hafter⟩ := exists_of_forall₂_append h
  rw [values_append] at hvs
  have hsame : (Action.values before i).length = vs₁.length := by
    rw [length_values, ← hlength, hbefore.length_eq]
  obtain ⟨rfl, rfl⟩ := List.append_inj hvs hsame
  cases hafter with
  | cons hfailed hafter =>
    generalize hvalue : a.value (before.foldl Action.next i) = v at hfailed
    cases hfailed
    have hnext := next_of_error hvalue
    rw [hnext] at hafter
    constructor
    · rw [values_append]
      exact List.rel_append hbefore hafter
    · rw [List.foldl_append, List.foldl_cons, hnext, List.foldl_append]

/-- A run that returns makes of the current value what it makes of the integer
that it starts from, and its results are those over the integers.  An action
without a result leaves the current buffer as it is, and if it failed, then
leaving it out changes neither the last value nor any other result. -/
theorem follow_denotes (hx : x.Denotes i) (h : Runs steps actions) :
    (∀ depth q results, follow depth steps (ofInteger x) = .value (q, results) →
      q.current.Denotes (actions.foldl Action.next i) ∧ q.toInteger = q.current ∧
        List.Forall₂ Agrees results (Action.values actions i)) ∧
    (∀ (A : Arithmetic) (p : Alternating) (a : Action Integer Writer),
      (p.act A a).2 ≠ .value () → (p.act A a).1.current = p.current) ∧
    ∀ before step after, steps = before ++ step :: after →
      ∀ depth q results₁ e results₂, results₁.length = before.length →
        follow depth steps (ofInteger x) = .value (q, results₁ ++ .error e :: results₂) →
      ∀ depth' q' results', follow depth' (before ++ after) (ofInteger x) = .value (q', results') →
        q'.current.equals q.current = true ∧
          List.Forall₂ Same results' (results₁ ++ results₂) := by
  have hstart := canonical_ofInteger hx.canonical
  have hrun {steps actions} (h : Runs steps actions) (depth : Nat) {q : Alternating}
      {results : List (Except Error Integer)}
      (hq : follow depth steps (ofInteger x) = .value (q, results)) :=
    (follow_yields h hstart hx).of_value hq
  refine ⟨fun depth q results hq => ?_, fun A p a => act_failed, ?_⟩
  · obtain ⟨hfinal, hresults⟩ := hrun h depth hq
    exact ⟨hfinal, toInteger_eq_current q, hresults⟩
  · rintro before step after rfl depth q results₁ e results₂ hlength hq depth' q' results' hq'
    obtain ⟨before', rest, rfl, hbefore, hrest⟩ := exists_of_forall₂_append h
    cases hrest with
    | @cons _ a _ after' hstep hafter =>
      obtain ⟨hfinal, hresults⟩ := hrun h depth hq
      obtain ⟨hfinal', hresults'⟩ := hrun (List.rel_append hbefore hafter) depth' hq'
      obtain ⟨hwithout, hvalue⟩ :=
        values_of_failed (hlength.trans hbefore.length_eq) hresults
      rw [hvalue] at hfinal
      exact ⟨(hfinal'.equals_iff hfinal).mpr rfl, forall₂_same hresults' hwithout⟩

/-- A writer that fails after it has filled the idle buffer is not seen later:
the next product is written over what it left there. -/
theorem follow_denotes_scribbled :
    ∃ q results q' results',
      follow 5 [({}, .mul (-2)), ({}, .write fun _ _ => (7, .failure .notInvertible)),
        ({}, .square), ({}, .rem 25)] (ofInteger 3) = .value (q, results) ∧
      q.current.Denotes 11 ∧
      List.Forall₂ Agrees results [.ok (-6), .error .notInvertible, .ok 36, .ok 11] ∧
      follow 5 [({}, .mul (-2)), ({}, .square), ({}, .rem 25)] (ofInteger 3) =
        .value (q', results') ∧
      q'.current.equals q.current = true := by
  have hreturns {o : Outcome (Alternating × List (Except Error Integer))}
      (h : ((fun _ => ()) <$> o) = Outcome.value ()) : ∃ q results, o = .value (q, results) := by
    cases o with
    | value r => exact ⟨r.1, r.2, rfl⟩
    | failure e => cases h
    | aborted => cases h
    | exhausted => cases h
  have hscribble : Overwrites (fun _ _ => (7, .failure .notInvertible))
      (fun _ => .error .notInvertible) :=
    fun _ _ => ⟨rfl, (denotes_ofNat 7).canonical⟩
  have hruns : Runs [({}, .mul (-2)), ({}, .write fun _ _ => (7, .failure .notInvertible)),
      ({}, .square), ({}, .rem 25)]
      [.mul (-2), .write fun _ => .error .notInvertible, .square, .rem 25] :=
    .cons (.mul (denotes_ofNat 2).neg) (.cons (.write hscribble)
      (.cons .square (.cons (.rem (denotes_ofNat 25)) .nil)))
  obtain ⟨q, results, hq⟩ := hreturns (o := follow 5 [({}, .mul (-2)),
    ({}, .write fun _ _ => (7, .failure .notInvertible)), ({}, .square), ({}, .rem 25)]
    (ofInteger 3)) (by decide +kernel)
  obtain ⟨q', results', hq'⟩ := hreturns (o := follow 5 [({}, .mul (-2)), ({}, .square),
    ({}, .rem 25)] (ofInteger 3)) (by decide +kernel)
  obtain ⟨hvalues, -, hwithout⟩ := follow_denotes (denotes_ofNat 3) hruns
  obtain ⟨hfinal, -, hresults⟩ := hvalues 5 q results hq
  have hlist : List.Forall₂ Agrees results [.ok (-6), .error .notInvertible, .ok 36, .ok 11] :=
    hresults
  refine ⟨q, results, q', results', hq, hfinal, hlist, hq', ?_⟩
  cases hlist with
  | @cons r _ results _ _ hlist =>
    cases hlist with
    | cons hfailed _ =>
      cases hfailed
      exact (hwithout [_] _ [_, _] rfl 5 q [r] _ _ rfl hq 5 q' results' hq').1

end Multiprecision.Alternating
