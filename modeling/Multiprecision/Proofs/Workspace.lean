import Mathlib
import Multiprecision.Workspace
import Multiprecision.Proofs.Complex.Samples
import Multiprecision.Proofs.Integer.Bits
import Multiprecision.Proofs.Integer.Decimal
import Multiprecision.Proofs.Integer.Hexadecimal
import Multiprecision.Proofs.Product.CrossCheck
import Multiprecision.Proofs.Quotient

/-!
# Multiprecision.Proofs.Workspace

Every integer that a program works with is canonical, at every point of it:

* `Registers.effect_canonical` — what an operation makes of canonical
  integers, one case per operation;
* `Alternating.step_canonical` — the buffers of a pair after a step, also
  after one that fails;
* `Workspace.step_canonical` — registers and pairs after a command;
* `Workspace.program_canonical` — after every command of any program.

Canonical are digits below `2^30` with no sign on zero, which is all that the
order, equality, hashing and the numerals rely on.
-/

namespace Multiprecision

open Outcome Integer

/-! ## Registers -/

namespace Registers

/-- Every register holds a canonical integer. -/
def Canonical (rs : Registers) : Prop := ∀ x ∈ rs, x.Canonical

/-- The integers that an operation makes are canonical. -/
def Effect.Canonical : Effect → Prop
  | .value x _ => x.Canonical
  | .quotient q r _ => q.Canonical ∧ r.Canonical

variable {rs : Registers} {x : Integer}

/-- A register holds a canonical integer, also one that does not exist. -/
theorem Canonical.get (h : rs.Canonical) (i : Nat) : (rs.get i).Canonical := by
  rw [Registers.get, List.getD_eq_getElem?_getD]
  cases hi : rs[i]? with
  | none => exact denotes_zero.canonical
  | some x => exact h x (List.mem_of_getElem? hi)

/-- A register may be given a canonical integer. -/
theorem Canonical.put (h : rs.Canonical) (i : Nat) (hx : x.Canonical) :
    Canonical (rs.put i x) := by
  intro y hy
  rcases List.mem_or_eq_of_mem_set hy with hy | rfl
  · exact h y hy
  · exact hx

/-- An effect keeps the registers canonical. -/
theorem Canonical.apply (h : rs.Canonical) (target : Nat) {e : Effect} (he : e.Canonical) :
    Canonical (rs.apply target e).1 := by
  cases e with
  | value x reading => exact h.put target he
  | quotient q r remainder => exact (h.put target he.1).put remainder he.2

/-- A new value that is canonical, if there is one. -/
theorem value_canonical {o : Outcome Integer} (h : o.Yields .any Integer.Canonical) :
    (do let y ← o; return Effect.value y : Outcome Effect).Yields .any Effect.Canonical :=
  h.bind fun _ hy => hy

/-- A quotient and a remainder that are canonical, if there are any. -/
theorem quotient_canonical {o : Outcome (Integer × Integer)} (remainder : Nat)
    (h : o.Yields .any fun (q, r) => q.Canonical ∧ r.Canonical) :
    (do let (q, r) ← o; return Effect.quotient q r remainder : Outcome Effect).Yields .any
      Effect.Canonical :=
  h.bind fun _ hqr => hqr

/-- Products of canonical integers are canonical, if there are any. -/
theorem product_canonical {may : Endings} {o : Outcome Integer} {i : Int}
    (h : o.Yields may (·.Denotes i)) : o.Yields .any Integer.Canonical :=
  (h.mono fun _ hr => hr.canonical).toAny

/-- A division of canonical integers that returns has canonical results. -/
theorem divide_canonical (t : Thresholds) (depth : Nat) {x y : Integer} (hx : x.Canonical)
    (hy : y.Canonical) (into : Integer) :
    ((Arithmetic.ofThresholds t depth).divide x y into).Yields .any
      fun (q, r) => q.Canonical ∧ r.Canonical :=
  ((Quotient.ofThresholds_divide_yields t depth hx.denotes hy.denotes into).mono
    fun _ h => ⟨h.2.1.canonical, h.2.2.canonical⟩).toAny

/-- The quotient by a word is canonical. -/
theorem divWord_ensures {i : Int} (h : x.Denotes i) (w : UInt32) :
    Ensures (fun (q, _) => q.Canonical) (x.divWord w) := by
  by_cases hw : w = 0
  · rw [Integer.divWord, if_pos hw]
    exact ensures_error
  · obtain ⟨q, r, hdiv, hq, -⟩ := h.divWord hw
    rw [hdiv]
    exact ensures_ok hq.canonical

/-- The quotient by a signed word is canonical. -/
theorem divSignedWord_ensures {i : Int} (h : x.Denotes i) (w : Int32) :
    Ensures (fun (q, _) => q.Canonical) (x.divSignedWord w) := by
  by_cases hw : w = 0
  · have hzero : wordMagnitude 0 = 0 := rfl
    rw [hw, Integer.divSignedWord, hzero, Integer.divWord, if_pos rfl]
    exact ensures_error
  · obtain ⟨q, r, hdiv, hq, -⟩ := h.divSignedWord hw
    rw [hdiv]
    exact ensures_ok hq.canonical

/-- What an operation makes of canonical integers is canonical. -/
theorem effect_canonical (t : Thresholds) (depth : Nat) (hrs : rs.Canonical) (hx : x.Canonical)
    (operation : Operation) :
    (rs.effect t depth x operation).Yields .any Effect.Canonical := by
  have hd := hx.denotes
  have hg (i : Nat) := (hrs.get i).denotes
  cases operation with
  | add s => exact (hd.add (hg s)).canonical
  | sub s => exact (hd.sub (hg s)).canonical
  | subFrom s => exact (hd.subFrom (hg s)).canonical
  | neg => exact hd.neg.canonical
  | abs => exact hd.abs.canonical
  | mulWord w => exact (hd.mulWord w).canonical
  | mulSignedWord w => exact (hd.mulSignedWord w).canonical
  | divWord w =>
    refine (Yields.of_ensures trivial (divWord_ensures hd w)).bind fun qr hqr => ?_
    exact hqr
  | divSignedWord w =>
    refine (Yields.of_ensures trivial (divSignedWord_ensures hd w)).bind fun qr hqr => ?_
    exact hqr
  | remWord w => exact (Yields.of_ensures trivial (ensures_true (x.remWord w))).bind fun _ _ => hx
  | shiftLeft bits => exact (hd.shiftLeft bits).canonical
  | shiftRight bits => exact (hd.shiftRight bits).canonical
  | shiftLeftDigits n => exact (hd.shiftLeftDigits n).canonical
  | shiftRightDigits n => exact (hd.shiftRight _).canonical
  | setBit i b => exact hx.setBit i b
  | bit i => exact hx
  | digit i => exact hx
  | bitWindow s lo hi => exact ((hg s).bitWindow lo hi).canonical
  | digitWindow s lo hi => exact ((hg s).digitWindow lo hi).canonical
  | scaled unit => exact hx
  | compareMagnitude s => exact hx
  | ofDigits words => exact canonical_ofDigits words
  | ofInt i => exact (denotes_ofInt i).canonical
  | ofDecimal s => exact value_canonical (.of_ensures trivial (ofDecimal_reads s).ensures)
  | ofHex s => exact value_canonical (.of_ensures trivial (ofHex_reads s).ensures)
  | ofWords bits words => exact canonical_ofDigits _
  | setSmall n => exact (denotes_setSmall x n).canonical
  | clear => exact (denotes_cleared x).canonical
  | zero => exact denotes_zero.canonical
  | zeros bits => exact (denotes_zeros bits).canonical
  | copy s => exact (hg s).compact.canonical
  | reserveBits bits => exact (hd.reserve _).canonical
  | reserve n => exact (hd.reserve n).canonical
  | trim => exact hd.trim.canonical
  | stored => exact hx
  | mul l r =>
    exact value_canonical (product_canonical
      (Product.signed_yields t depth (f := .pair _ _) ⟨hrs.get l, hrs.get r⟩ x))
  | mulMagnitudes l r =>
    exact value_canonical (product_canonical
      (Product.magnitudes_yields t depth (f := .pair _ _) ⟨hrs.get l, hrs.get r⟩ x))
  | mulBy algorithm l r =>
    exact value_canonical
      (Product.withAlgorithm_canonical t depth algorithm (f := .pair _ _) ⟨hrs.get l, hrs.get r⟩ x)
  | mulGradeSchool l r =>
    exact value_canonical (product_canonical
      (Product.schoolbook_yields (f := .pair _ _) ⟨hrs.get l, hrs.get r⟩ x))
  | mulComplex l r =>
    exact value_canonical (.of_ensures trivial (Complex.product_ensures _))
  | square s =>
    exact value_canonical (product_canonical
      (Product.magnitudes_yields t depth (f := .twice _) (hrs.get s) x))
  | squareBy algorithm s =>
    exact value_canonical
      (Product.withAlgorithm_canonical t depth algorithm (f := .twice _) (hrs.get s) x)
  | squareGradeSchool s =>
    exact value_canonical (product_canonical
      (Product.schoolbook_yields (f := .twice _) (hrs.get s) x))
  | divide s into =>
    exact quotient_canonical into (divide_canonical t depth hx (hrs.get s) _)
  | divideMagnitudes s into =>
    have hm : Multiplier.ExactOn .any (fun _ => True) fun f => Product.magnitudes t depth f .zero :=
      fun _ hf _ => (Product.magnitudes_yields t depth hf .zero).weaken nofun id id
    refine quotient_canonical into ?_
    exact (Quotient.magnitudes_yields (fun _ => trivial) (.inl trivial) hm t hd (hg s) _).mono
      fun _ h => ⟨h.2.1.canonical, h.2.2.canonical⟩
  | divideLong s into =>
    refine quotient_canonical into ?_
    exact (Yields.of_ensures trivial (Quotient.long_ensures hd (hg s))).mono
      fun _ h => ⟨h.1.canonical, h.2.canonical⟩
  | rem s =>
    refine value_canonical ((divide_canonical t depth hx (hrs.get s) _).bind fun _ h => ?_)
    exact h.2

/-- One instruction leaves the registers canonical, whether it fails or not. -/
theorem step_canonical (t : Thresholds) (depth : Nat) (hrs : rs.Canonical) (i : Instruction) :
    Canonical (rs.step t depth i).1 := by
  have heffect := effect_canonical t depth hrs (hrs.get i.target) i.operation
  rw [step]
  cases h : rs.effect t depth (rs.get i.target) i.operation with
  | value e => exact hrs.apply i.target (heffect.of_value h)
  | failure e => exact hrs
  | aborted => exact hrs
  | exhausted => exact hrs

end Registers

/-! ## Pairs of buffers -/

namespace Alternating

/-- All three buffers hold canonical integers. -/
structure Canonical (p : Alternating) : Prop where
  first : p.first.Canonical
  second : p.second.Canonical
  scratch : p.scratch.Canonical

/-- The operands of a step are canonical. -/
def Step.Canonical : Step Integer → Prop
  | .mul y | .rem y | .writeSum y | .fail y => y.Canonical
  | _ => True

variable {p : Alternating} {x : Integer}

/-- A pair of buffers starts canonical. -/
theorem canonical_ofInteger (hx : x.Canonical) : (ofInteger x).Canonical :=
  ⟨hx, denotes_zero.canonical, denotes_zero.canonical⟩

theorem Canonical.current (h : p.Canonical) : p.current.Canonical := by
  rw [Alternating.current]
  split
  · exact h.second
  · exact h.first

theorem Canonical.idle (h : p.Canonical) : p.idle.Canonical := by
  rw [Alternating.idle]
  split
  · exact h.first
  · exact h.second

theorem Canonical.setIdle (h : p.Canonical) (hx : x.Canonical) : (p.setIdle x).Canonical := by
  rw [Alternating.setIdle]
  split
  · exact { h with first := hx }
  · exact { h with second := hx }

theorem Canonical.swap (h : p.Canonical) : p.swap.Canonical := ⟨h.first, h.second, h.scratch⟩

/-- A step that fails has written the idle buffer all the same. -/
theorem Canonical.write (h : p.Canonical) {f : Integer → Integer → Integer × Outcome Unit}
    (hf : (f p.current p.idle).1.Canonical) : (p.write f).1.Canonical := by
  rw [Alternating.write]
  generalize f p.current p.idle = result at hf ⊢
  cases result with
  | mk x status =>
    have hidle := h.setIdle hf
    cases status with
    | value u => exact hidle.swap
    | failure e => exact hidle
    | aborted => exact hidle
    | exhausted => exact hidle

/-- What a step leaves in the idle buffer is canonical, whether it fails or not. -/
theorem written_canonical {idle : Integer} (hidle : idle.Canonical) {o : Outcome Integer}
    (ho : o.Yields .any Integer.Canonical) : (written idle o).1.Canonical := by
  cases o with
  | value x => exact ho
  | failure e => exact hidle
  | aborted => exact hidle
  | exhausted => exact hidle

/-- A remainder that fails has written the scratch buffer all the same. -/
theorem rem_canonical (t : Thresholds) (depth : Nat) (h : p.Canonical) (hx : x.Canonical) :
    (p.rem (.ofThresholds t depth) x).1.Canonical := by
  have hscratch := h.current.denotes.compact.canonical
  have hp : Canonical { p with scratch := p.current.compact } := { h with scratch := hscratch }
  simp only [rem]
  cases hdivide : (Arithmetic.ofThresholds t depth).divide p.current.compact x
      (idle { p with scratch := p.current.compact }) with
  | value qr =>
    have hqr := (Registers.divide_canonical t depth hscratch hx _).of_value hdivide
    have hquotient : Canonical { p with scratch := qr.1 } := ⟨h.first, h.second, hqr.1⟩
    exact (hquotient.setIdle hqr.2).swap
  | failure e => exact hp
  | aborted => exact hp
  | exhausted => exact hp

/-- One step leaves the buffers canonical, whether it fails or not. -/
theorem step_canonical (t : Thresholds) (depth : Nat) (h : p.Canonical) {s : Step Integer}
    (hs : s.Canonical) : (p.step (.ofThresholds t depth) s).1.Canonical := by
  have hproduct {f : Factors} (hf : f.Canonical) :=
    written_canonical h.idle (Registers.product_canonical (Product.signed_yields t depth hf p.idle))
  cases s with
  | mul y => exact h.write (hproduct (f := .pair _ _) ⟨h.current, hs⟩)
  | square => exact h.write (hproduct (f := .twice _) h.current)
  | rem m => exact rem_canonical t depth h hs
  | reserveBits bits =>
    exact ⟨(h.first.denotes.reserve _).canonical, (h.second.denotes.reserve _).canonical,
      (h.scratch.denotes.reserve _).canonical⟩
  | reserveBitsAfter writes bits =>
    rw [step, reserveBitsAfter]
    split
    · exact { h with second := (h.second.denotes.reserve _).canonical }
    · exact { h with first := (h.first.denotes.reserve _).canonical }
  | writeSum y => exact h.write (h.current.denotes.compact.add hs.denotes).canonical
  | accumulate => exact h.write (h.idle.denotes.add h.current.denotes).canonical
  | fail y => exact h.write hs.denotes.compact.canonical
  | copy => exact h

end Alternating

/-! ## Workspaces -/

namespace Workspace

/-- Every integer in the registers and the buffers is canonical. -/
structure Canonical (w : Workspace) : Prop where
  registers : w.registers.Canonical
  pairs : ∀ p ∈ w.pairs, p.Canonical

variable {w : Workspace}

theorem canonical_fresh (n : Nat) : (fresh n).Canonical :=
  ⟨fun _ hx => List.eq_of_mem_replicate hx ▸ denotes_zero.canonical, nofun⟩

/-- Every pair of buffers is canonical, also one that does not exist. -/
theorem Canonical.pair (h : w.Canonical) (i : Nat) : (w.pair i).Canonical := by
  rw [Workspace.pair, List.getD_eq_getElem?_getD]
  cases hi : w.pairs[i]? with
  | none => exact Alternating.canonical_ofInteger denotes_zero.canonical
  | some p => exact h.pairs p (List.mem_of_getElem? hi)

/-- A pair may be replaced by a canonical one. -/
theorem Canonical.putPair (h : w.Canonical) (i : Nat) {result : Alternating × Outcome Unit}
    (hresult : result.1.Canonical) : (w.putPair i result).1.Canonical := by
  refine { h with pairs := fun p hp => ?_ }
  rcases List.mem_or_eq_of_mem_set hp with hp | rfl
  · exact h.pairs p hp
  · exact hresult

theorem Canonical.addPair (h : w.Canonical) {p : Alternating} (hp : p.Canonical) :
    Canonical { w with pairs := w.pairs ++ [p] } := by
  refine { h with pairs := fun q hq => ?_ }
  rcases List.mem_append.mp hq with hq | hq
  · exact h.pairs q hq
  · rwa [List.mem_singleton.mp hq]

/-- Operations on one integer, up to the first that fails. -/
theorem fill_canonical (t : Thresholds) (depth : Nat) {rs : Registers} (hrs : rs.Canonical)
    (operations : List Registers.Operation) {x : Integer} (hx : x.Canonical) :
    (fill t depth rs operations x).1.Canonical := by
  induction operations generalizing x with
  | nil => exact hx
  | cons operation operations ih =>
    have heffect := Registers.effect_canonical t depth hrs hx operation
    rw [fill]
    cases h : rs.effect t depth x operation with
    | value e =>
      have he := heffect.of_value h
      cases e with
      | value y reading => exact ih he
      | quotient q r remainder => exact ih he.1
    | failure e => exact hx
    | aborted => exact hx
    | exhausted => exact hx

/-- A step with its operand read from the registers has a canonical operand. -/
theorem map_canonical (h : w.Canonical) (s : Alternating.Step Nat) :
    (s.map w.registers.get).Canonical := by
  cases s with
  | mul y => exact h.registers.get y
  | rem m => exact h.registers.get m
  | writeSum y => exact h.registers.get y
  | fail y => exact h.registers.get y
  | square => exact trivial
  | reserveBits bits => exact trivial
  | reserveBitsAfter writes bits => exact trivial
  | accumulate => exact trivial
  | copy => exact trivial

/-- One command leaves every integer canonical, whether it fails or not. -/
theorem step_canonical (t : Thresholds) (depth : Nat) (h : w.Canonical) (c : Command) :
    (w.step t depth c).1.Canonical := by
  cases c with
  | calculate i => exact { h with registers := Registers.step_canonical t depth h.registers i }
  | start source => exact h.addPair (Alternating.canonical_ofInteger (h.registers.get source))
  | copy i => exact h.addPair (h.pair i)
  | step i s =>
    exact h.putPair i (Alternating.step_canonical t depth (h.pair i) (map_canonical h s))
  | write i operations =>
    have hregisters : Registers.Canonical ((w.pair i).current :: w.registers) := by
      intro x hx
      rcases List.mem_cons.mp hx with rfl | hx
      · exact (h.pair i).current
      · exact h.registers x hx
    exact h.putPair i
      ((h.pair i).write (fill_canonical t depth hregisters operations (h.pair i).idle))
  | take i target =>
    exact { h with registers := h.registers.put target (h.pair i).current }

/-- A program leaves every integer canonical. -/
theorem run_canonical (depth : Nat) (h : w.Canonical) (program : List (Thresholds × Command)) :
    (w.run depth program).Canonical := by
  induction program generalizing w with
  | nil => exact h
  | cons c program ih => exact ih (step_canonical c.1 depth h c.2)

/-- Whatever the program, its thresholds and its failures, every integer in the
registers and the buffers is canonical after each of its commands: all digits
are below `2^30`, and zero has no sign. -/
theorem program_canonical (registers depth : Nat) (program : List (Thresholds × Command))
    (n : Nat) :
    ((fresh registers).run depth (program.take n)).Canonical :=
  run_canonical depth (canonical_fresh registers) (program.take n)

/-- A remainder by zero fails with the dividend left in the scratch buffer; -8
loses its last bit and with it the sign; a quotient by zero changes nothing. -/
example :
    (fresh 2).run 5 (List.map (Prod.mk {}) [
      .calculate ⟨0, .ofDigits [8]⟩, .calculate ⟨0, .neg⟩, .start 0, .step 0 (.rem 1),
      .calculate ⟨0, .setBit 3 false⟩, .calculate ⟨0, .divide 1 1⟩]) =
    { registers := [⟨false, [0]⟩, .zero],
      pairs := [{ first := ⟨true, [8]⟩, scratch := ⟨true, [8]⟩ }] } := by
  decide +kernel

end Workspace

end Multiprecision
