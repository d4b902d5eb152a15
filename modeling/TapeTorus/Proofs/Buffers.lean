import TapeTorus.Proofs.Reachable

/-!
# Host buffers

Tapes and registers come from flat buffers and are written back to them.  Both layouts
are lossless: a bank is read from just those buffers that consist of whole triples on
the tape, and gives the same buffer back, and a store keeps the low byte of every value.
-/

namespace TapeTorus

/-! ## Refusals -/

namespace Error

/-- If the computation has no result, then because its input is refused. -/
def OnlyRefuses {α : Type} (x : Except Error α) : Prop :=
  ∀ e, x = .error e → ∃ cause, e = .config cause

theorem onlyRefuses_ok {α : Type} (a : α) : OnlyRefuses (.ok a) := by
  intro e h
  cases h

theorem onlyRefuses_require (p : Prop) [Decidable p] (cause : ConfigError) :
    OnlyRefuses (require p cause) := by
  intro e h
  by_cases hp : p
  · rw [require_eq_ok hp] at h
    cases h
  · rw [require_eq_error hp, Except.error.injEq] at h
    exact ⟨cause, h.symm⟩

theorem OnlyRefuses.bind {α β : Type} {x : Except Error α} {f : α → Except Error β}
    (hx : OnlyRefuses x) (hf : ∀ a, OnlyRefuses (f a)) : OnlyRefuses (x >>= f) := by
  intro e h
  cases x with
  | error e' =>
    have he : (Except.error e' : Except Error β) = .error e := h
    exact hx e (congrArg Except.error (Except.error.inj he))
  | ok a => exact hf a e h

theorem OnlyRefuses.exists_cause {α : Type} {x : Except Error α} (hx : OnlyRefuses x)
    (h : ∀ a, x ≠ .ok a) : ∃ cause, x = .error (.config cause) := by
  cases x with
  | ok a => exact absurd rfl (h a)
  | error e =>
    obtain ⟨cause, rfl⟩ := hx e rfl
    exact ⟨cause, rfl⟩

/-- The computation has a result of the given kind if its input is accepted and memory
holds what it needs; it refuses all other input, and faults only for want of memory. -/
structure Decides {α : Type} (x : Except Error α) (accepted memory : Prop) (result : α → Prop) :
    Prop where
  ok_iff : (∃ a, x = .ok a) ↔ accepted ∧ memory
  refused_iff : (∃ cause, x = .error (.config cause)) ↔ ¬accepted
  fault_iff : x = .error (.fault .capacity) ↔ accepted ∧ ¬memory
  result_of_ok : ∀ a, x = .ok a → result a

theorem Decides.of_cases {α : Type} {x : Except Error α} {accepted memory : Prop}
    {result : α → Prop} (hok : accepted → memory → ∃ a, x = .ok a ∧ result a)
    (hfault : accepted → ¬memory → x = .error (.fault .capacity))
    (hrefused : ¬accepted → ∃ cause, x = .error (.config cause)) :
    Decides x accepted memory result := by
  by_cases haccepted : accepted
  · by_cases hmemory : memory
    · obtain ⟨a, rfl, ha⟩ := hok haccepted hmemory
      constructor
      · simp [haccepted, hmemory]
      · simp [haccepted]
      · simp [hmemory]
      · rintro a' h
        exact Except.ok.inj h ▸ ha
    · obtain rfl := hfault haccepted hmemory
      constructor
      · simp [hmemory]
      · simp [haccepted]
      · simp [haccepted, hmemory]
      · intro a h
        cases h
  · obtain ⟨cause, rfl⟩ := hrefused haccepted
    constructor
    · simp [haccepted]
    · simp [haccepted]
    · simp [haccepted]
    · intro a h
      cases h

end Error

open Error (OnlyRefuses onlyRefuses_ok onlyRefuses_require)

/-! ## Flat registers -/

namespace RegisterBank

/-- The values of triples, one after the other. -/
def valuesOf (triples : List Registers) : List UInt32 :=
  triples.flatMap fun r => [r.ip, r.head0, r.head1]

theorem toFlat_eq (b : RegisterBank) : b.toFlat = valuesOf b.triples.toList := rfl

@[simp] theorem valuesOf_nil : valuesOf [] = [] := rfl

@[simp] theorem valuesOf_cons (r : Registers) (triples : List Registers) :
    valuesOf (r :: triples) = r.ip :: r.head0 :: r.head1 :: valuesOf triples := rfl

@[simp] theorem length_valuesOf (triples : List Registers) :
    (valuesOf triples).length = 3 * triples.length := by
  induction triples with
  | nil => rfl
  | cons r triples ih =>
    rw [valuesOf_cons, List.length_cons, List.length_cons, List.length_cons, ih, List.length_cons]
    omega

@[simp] theorem triplesOf_valuesOf (triples : List Registers) :
    triplesOf (valuesOf triples) = triples := by
  induction triples with
  | nil => rfl
  | cons r triples ih => rw [valuesOf_cons, triplesOf, ih]

theorem valuesOf_triplesOf {flat : List UInt32} (h : flat.length % 3 = 0) :
    valuesOf (triplesOf flat) = flat := by
  match flat, h with
  | [], _ => rfl
  | ip :: head0 :: head1 :: rest, h =>
    have hrest : rest.length % 3 = 0 := by
      simp only [List.length_cons] at h
      omega
    rw [triplesOf, valuesOf_cons, valuesOf_triplesOf hrest]

theorem lt_of_within_iff {triples : List Registers} {length : Nat} :
    (∀ value ∈ valuesOf triples, value.toNat < length) ↔ ∀ r ∈ triples, r.Within length := by
  induction triples with
  | nil => simp
  | cons r triples ih =>
    simp only [valuesOf_cons, List.forall_mem_cons, ih, Registers.Within, and_assoc]

theorem valuesOf_replicate_start (n : Nat) :
    valuesOf (List.replicate n .start) = List.replicate (3 * n) 0 := by
  induction n with
  | zero => rfl
  | succ n ih =>
    rw [List.replicate_succ, valuesOf_cons, ih, Nat.mul_succ, List.replicate_succ,
      List.replicate_succ, List.replicate_succ]
    rfl

/-- Flat registers are read if they are whole triples of positions on the tape, and the
bank writes them back as they were. -/
theorem ofFlat_eq_ok_iff {flat : Array UInt32} {tapeLength : Nat} {b : RegisterBank} :
    ofFlat flat tapeLength = .ok b ↔
      (flat.size % 3 = 0 ∧ ∀ value ∈ flat, value.toNat < tapeLength) ∧
        b.tapeLength = tapeLength ∧ b.toFlat = flat.toList := by
  constructor
  · intro h
    simp only [ofFlat, bind_eq_ok_iff] at h
    obtain ⟨_, hwhole, h⟩ := h
    have hwhole : flat.size % 3 = 0 := Error.require_eq_ok_iff.1 hwhole
    split at h
    · cases h
    · rename_i hnone
      obtain rfl := Except.ok.inj h
      have hflat : valuesOf (triplesOf flat.toList) = flat.toList := valuesOf_triplesOf hwhole
      have hwithin : ∀ r ∈ triplesOf flat.toList, r.Within tapeLength := by
        intro r hr
        simpa using Array.findIdx?_eq_none_iff.1 hnone r (by simpa using hr)
      refine ⟨⟨hwhole, fun value hvalue => ?_⟩, rfl, hflat⟩
      apply lt_of_within_iff.2 hwithin
      rw [hflat]
      exact hvalue.val
  · rintro ⟨⟨hwhole, hlt⟩, hlength, hflat⟩
    have htriples : triplesOf flat.toList = b.triples.toList := by
      rw [← hflat, toFlat_eq, triplesOf_valuesOf]
    have hwithin : ∀ r ∈ b.triples.toList, r.Within tapeLength := by
      apply lt_of_within_iff.1
      intro value hvalue
      apply hlt
      rw [← toFlat_eq, hflat] at hvalue
      exact Array.mem_def.2 hvalue
    have hnone : (triplesOf flat.toList).toArray.findIdx? (fun r => ¬r.Within tapeLength) =
        none := by
      rw [Array.findIdx?_eq_none_iff, htriples]
      intro r hr
      simpa using hwithin r (by simpa using hr)
    rw [ofFlat, Error.require_eq_ok hwhole, ok_bind]
    dsimp only
    split
    · rename_i i hsome
      rw [hnone] at hsome
      cases hsome
    · rw [← hlength, htriples]

theorem onlyRefuses_ofFlat (flat : Array UInt32) (tapeLength : Nat) :
    OnlyRefuses (ofFlat flat tapeLength) := by
  unfold ofFlat
  apply (onlyRefuses_require _ _).bind
  intro _
  dsimp only
  split
  · intro e h
    rw [Except.error.injEq] at h
    exact ⟨_, h.symm⟩
  · exact onlyRefuses_ok _

/-- A bank is determined by its tape length and its flat registers. -/
theorem eq_of_toFlat {a b : RegisterBank} (hlength : a.tapeLength = b.tapeLength)
    (hflat : a.toFlat = b.toFlat) : a = b := by
  have htriples : a.triples.toList = b.triples.toList := by
    rw [← triplesOf_valuesOf a.triples.toList, ← toFlat_eq, hflat, toFlat_eq, triplesOf_valuesOf]
  cases a
  cases b
  simp only at hlength htriples
  rw [hlength, Array.toList_inj.1 htriples]

theorem size_toFlat (b : RegisterBank) : b.toFlat.length = 3 * b.size := by
  rw [toFlat_eq, length_valuesOf]
  rfl

end RegisterBank

/-! ## Tapes from buffers -/

namespace Store

variable {s t : Store} {tapeLength programs : Nat} {buffer : Array UInt32}

theorem zeroed_eq_ok (hlength : 0 < tapeLength) (hprograms : 0 < programs)
    (hfits : programs * tapeLength * cellBytes ≤ Size.tableLimit) :
    ∃ s, zeroed tapeLength programs = .ok s ∧ s.tapeLength = tapeLength ∧
      s.programs = programs ∧ s.cells = Array.replicate (programs * tapeLength) 0 := by
  have hlimit : programs * tapeLength < Size.limit := by
    simp only [Size.tableLimit, Size.limit, cellBytes] at *
    omega
  rw [zeroed, dif_pos ⟨hlength, hprograms⟩, if_pos hlimit, dif_pos hfits]
  exact ⟨_, rfl, rfl, rfl, rfl⟩

theorem zeroed_eq_error (hlength : 0 < tapeLength) (hprograms : 0 < programs)
    (hlimit : programs * tapeLength < Size.limit)
    (hfits : ¬programs * tapeLength * cellBytes ≤ Size.tableLimit) :
    zeroed tapeLength programs = .error (.fault .capacity) := by
  rw [zeroed, dif_pos ⟨hlength, hprograms⟩, if_pos hlimit, dif_neg hfits]

/-- A buffer of whole tapes makes a store of their low bytes. -/
theorem ofCells_eq_ok (hlength : 0 < tapeLength) (hprograms : 0 < programs)
    (hsize : buffer.size = programs * tapeLength)
    (hfits : programs * tapeLength * cellBytes ≤ Size.tableLimit) :
    ∃ s, ofCells tapeLength buffer = .ok s ∧ s.tapeLength = tapeLength ∧
      s.programs = programs ∧ s.cells = buffer.map UInt32.toUInt8 := by
  have hwhole : tapeLength ≠ 0 ∧ buffer.size % tapeLength = 0 := by
    refine ⟨Nat.ne_of_gt hlength, ?_⟩
    rw [hsize, Nat.mul_mod_left]
  have hcount : buffer.size / tapeLength = programs := by
    rw [hsize, Nat.mul_div_cancel _ hlength]
  obtain ⟨s, hs, rfl, rfl, -⟩ := zeroed_eq_ok hlength hprograms hfits
  have hwrite : buffer.size = s.cells.size := hsize.trans s.size_eq.symm
  rw [ofCells, Error.require_eq_ok hwhole, ok_bind, hcount, hs, ok_bind, writeCells,
    dif_pos hwrite]
  exact ⟨_, rfl, rfl, rfl, rfl⟩

theorem cells_of_writeCells (h : s.writeCells buffer = .ok t) :
    t.cells = buffer.map UInt32.toUInt8 := by
  unfold writeCells at h
  split at h
  · obtain rfl := Except.ok.inj h
    rfl
  · cases h

theorem snapshot_of_cells (h : s.cells = buffer.map UInt32.toUInt8) :
    s.snapshot = buffer.map (· % 256) := by
  have hbyte : UInt8.toUInt32 ∘ UInt32.toUInt8 = (· % 256) := by
    funext value
    exact UInt32.toUInt32_toUInt8 value
  rw [snapshot, h, Array.map_map, hbyte]

theorem snapshot_mod (s : Store) : s.snapshot.map (· % 256) = s.snapshot :=
  (snapshot_of_cells s.cells_eq_of_snapshot).symm

theorem size_snapshot (s : Store) : s.snapshot.size = s.programs * s.tapeLength := by
  rw [snapshot, Array.size_map, s.size_eq]

/-- A store is determined by its sizes and its flat tapes. -/
theorem eq_of_snapshot (hshape : s.SameShape t) (h : s.snapshot = t.snapshot) : s = t := by
  apply hshape.eq_of_cells
  rw [s.cells_eq_of_snapshot, h, ← t.cells_eq_of_snapshot]

end Store
end TapeTorus
