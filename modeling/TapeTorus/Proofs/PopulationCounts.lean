import Mathlib.Data.Finset.Card
import TapeTorus.Proofs.CodeCounts

/-!
# Counts over populations

What is reported of a population agrees with the population itself.  The histogram counts every
byte value, so its entries add up to the number of cells, the first of them counts the zeros, and
the top byte is the least of the most frequent values.  The whole tapes are counted as a set:
neither their order nor a rest that is shorter than a tape matters.
-/

namespace TapeTorus

namespace Metrics

/-! ## Different tapes -/

/-- The cells of the tape at index `i`. -/
def tapeAt (population : Array UInt8) (tapeLength i : Nat) : List UInt8 :=
  (List.range tapeLength).map fun o => population.getD (i * tapeLength + o) 0

private theorem wholeTapes_eq (tapeLength : Nat) (population : Array UInt8) :
    wholeTapes tapeLength population =
      (List.range (population.size / tapeLength)).map (tapeAt population tapeLength) := by
  apply List.map_congr_left
  intro i hi
  have hnext : (i + 1) * tapeLength = i * tapeLength + tapeLength := by
    rw [Nat.add_mul, Nat.one_mul]
  have hend : i * tapeLength + tapeLength ≤ population.size := by
    calc i * tapeLength + tapeLength = (i + 1) * tapeLength := hnext.symm
      _ ≤ population.size / tapeLength * tapeLength :=
          Nat.mul_le_mul_right _ (List.mem_range.1 hi)
      _ ≤ population.size := Nat.div_mul_le_self _ _
  rw [hnext]
  apply List.ext_getElem
  · simp [tapeAt]
    omega
  · intro o ho _
    have hplace : i * tapeLength + o < population.size := by
      simp at ho
      omega
    simp [tapeAt, hplace]

private theorem size_foldl_insert (l : List (List UInt8)) {held : Std.HashSet (List UInt8)}
    {known : Finset (List UInt8)} (hmem : ∀ tape, tape ∈ held ↔ tape ∈ known)
    (hsize : held.size = known.card) :
    (l.foldl Std.HashSet.insert held).size = (known ∪ l.toFinset).card := by
  induction l generalizing held known with
  | nil => simpa using hsize
  | cons tape l ih =>
    rw [List.foldl_cons, List.toFinset_cons, Finset.union_insert, ← Finset.insert_union]
    apply ih
    · intro other
      rw [Std.HashSet.mem_insert, Finset.mem_insert, hmem, beq_iff_eq, eq_comm]
    · rw [Std.HashSet.size_insert, Finset.card_insert_eq_ite, hsize]
      simp only [hmem]

private theorem uniqueCount_eq_wholeTapes {population : Array UInt8} {tapeLength : Nat}
    (h : tapeLength ≠ 0) :
    uniqueCount population tapeLength = (wholeTapes tapeLength population).toFinset.card := by
  have hcount : ((wholeTapes tapeLength population).foldl Std.HashSet.insert ∅).size =
      (∅ ∪ (wholeTapes tapeLength population).toFinset).card :=
    size_foldl_insert _ (by simp) (by simp)
  rw [uniqueCount, if_neg h, hcount, Finset.empty_union]

/-- The different tapes are those at the indices of whole tapes; there are none if tapes have no
cells. -/
theorem uniqueCount_eq (population : Array UInt8) (tapeLength : Nat) :
    uniqueCount population tapeLength =
      ((Finset.range (population.size / tapeLength)).image
        (tapeAt population tapeLength)).card := by
  by_cases h : tapeLength = 0
  · simp [uniqueCount, h]
  · have himage : ((List.range (population.size / tapeLength)).map
        (tapeAt population tapeLength)).toFinset =
        (Finset.range (population.size / tapeLength)).image (tapeAt population tapeLength) := by
      ext tape
      simp
    rw [uniqueCount_eq_wholeTapes h, wholeTapes_eq, himage]

private theorem flatten_getElem? {tapes : List (List UInt8)} {tapeLength i o : Nat}
    (h : ∀ tape ∈ tapes, tape.length = tapeLength) (hi : i < tapes.length) (ho : o < tapeLength) :
    tapes.flatten[i * tapeLength + o]? = tapes[i][o]? := by
  induction tapes generalizing i with
  | nil => cases hi
  | cons tape tapes ih =>
    have htape : tape.length = tapeLength := h tape (by simp)
    rw [List.flatten_cons]
    cases i with
    | zero =>
      rw [Nat.zero_mul, Nat.zero_add, List.getElem?_append_left (htape ▸ ho)]
      rfl
    | succ i =>
      have hplace : (i + 1) * tapeLength + o = tape.length + (i * tapeLength + o) := by
        rw [htape, Nat.add_mul]
        omega
      rw [hplace, List.getElem?_append_right (Nat.le_add_right _ _), Nat.add_sub_cancel_left]
      exact ih (fun tape ht => h tape (by simp [ht])) (Nat.lt_of_succ_lt_succ hi)

private theorem length_flatten {tapes : List (List UInt8)} {tapeLength : Nat}
    (h : ∀ tape ∈ tapes, tape.length = tapeLength) :
    tapes.flatten.length = tapes.length * tapeLength := by
  rw [List.length_flatten, List.sum_eq_card_nsmul _ tapeLength]
  · simp
  · intro n hn
    obtain ⟨tape, htape, rfl⟩ := List.mem_map.1 hn
    exact h tape htape

private theorem wholeTapes_flatten {tapes : List (List UInt8)} {rest : List UInt8}
    {tapeLength : Nat}
    (h : ∀ tape ∈ tapes, tape.length = tapeLength) (hrest : rest.length < tapeLength) :
    wholeTapes tapeLength (tapes.flatten ++ rest).toArray = tapes := by
  have hcount : (tapes.flatten ++ rest).toArray.size / tapeLength = tapes.length := by
    rw [List.size_toArray, List.length_append, length_flatten h, Size.row_of_place hrest]
  rw [wholeTapes_eq, hcount]
  apply List.ext_getElem
  · simp
  · intro i _ hi
    have htape : tapes[i].length = tapeLength := h _ (List.getElem_mem hi)
    rw [List.getElem_map, List.getElem_range]
    apply List.ext_getElem
    · simp [tapeAt, htape]
    · intro o _ ho
      have hplace : i * tapeLength + o < tapes.flatten.length := by
        rw [length_flatten h]
        exact Size.place_lt hi (htape ▸ ho)
      have hcell := flatten_getElem? h hi (htape ▸ ho)
      rw [List.getElem?_eq_getElem ho] at hcell
      simp [tapeAt, List.getElem?_append_left hplace, hcell]

private theorem uniqueCount_flatten {tapes : List (List UInt8)} {rest : List UInt8}
    {tapeLength : Nat}
    (h : ∀ tape ∈ tapes, tape.length = tapeLength) (hrest : rest.length < tapeLength) :
    uniqueCount (tapes.flatten ++ rest).toArray tapeLength = tapes.toFinset.card := by
  have hlength : tapeLength ≠ 0 := Nat.ne_of_gt (Nat.zero_lt_of_lt hrest)
  rw [uniqueCount_eq_wholeTapes hlength, wholeTapes_flatten h hrest]

/-! ## The histogram -/

/-- All byte values, in their order. -/
def byteValues : List UInt8 := (List.range 256).map UInt8.ofNat

private theorem mem_byteValues (b : UInt8) : b ∈ byteValues :=
  List.mem_map.2 ⟨b.toNat, List.mem_range.2 b.toNat_lt, UInt8.ofNat_toNat⟩

private theorem nodup_byteValues : byteValues.Nodup := by
  apply List.Nodup.map_on _ List.nodup_range
  intro i hi j hj h
  rw [← UInt8.toNat_ofNat_of_lt' (List.mem_range.1 hi), h,
    UInt8.toNat_ofNat_of_lt' (List.mem_range.1 hj)]

private theorem size_histogram (population : Array UInt8) : (histogram population).size = 256 := by
  have hfold : ∀ (l : List UInt8) (counts : Array Nat),
      (l.foldl (fun counts b => counts.modify b.toNat (· + 1)) counts).size = counts.size := by
    intro l
    induction l with
    | nil => exact fun _ => rfl
    | cons b l ih => exact fun counts => (ih _).trans Array.size_modify
  rw [histogram, ← Array.foldl_toList, hfold, Array.size_replicate]

/-- The histogram is the list of the counts of all byte values. -/
theorem histogram_toList (population : Array UInt8) :
    (histogram population).toList = byteValues.map population.count := by
  apply List.ext_getElem
  · simp [size_histogram, byteValues]
  · intro i hi _
    have hbyte : i < 256 := by simpa [size_histogram] using hi
    have hcount := histogram_getD population (UInt8.ofNat i)
    rw [UInt8.toNat_ofNat_of_lt' hbyte, Array.count_toList] at hcount
    simpa [byteValues, size_histogram, hbyte] using hcount

private theorem histogram_getElem? (population : Array UInt8) (b : UInt8) :
    (histogram population)[b.toNat]? = some (population.count b) := by
  have hb : b.toNat < (histogram population).size := size_histogram population ▸ b.toNat_lt
  have hcount := histogram_getD population b
  rw [Array.count_toList] at hcount
  simpa [hb] using hcount

private theorem sum_histogram (population : Array UInt8) :
    (histogram population).sum = population.size := by
  rw [← Array.sum_toList, histogram_toList]
  calc (byteValues.map population.count).sum
      = (byteValues.map fun b => population.toList.count b).sum := by simp only [Array.count_toList]
    _ = population.toList.countP (· ∈ byteValues) := sum_count nodup_byteValues _
    _ = population.size := List.countP_eq_length.2 fun b _ => by simp [mem_byteValues]

/-! ## The top byte -/

private theorem outranks_iff {a b : Nat × Nat} :
    outranks a b = true ↔ b.1 < a.1 ∨ (a.1 = b.1 ∧ a.2 < b.2) := by
  simp [outranks]

private theorem leader?_append (entries : List (Nat × Nat)) (entry : Nat × Nat) :
    leader? (entries ++ [entry]) =
      match leader? entries with
      | some best => if outranks best entry then some best else some entry
      | none => some entry := by
  rw [leader?, List.foldl_append]
  rfl

/-- Some entry leads, and none outranks it. -/
theorem leader?_eq_some {entries : List (Nat × Nat)} (h : entries ≠ []) :
    ∃ best ∈ entries, leader? entries = some best ∧
      ∀ other ∈ entries, ¬outranks other best = true := by
  induction entries using List.reverseRecOn with
  | nil => exact absurd rfl h
  | append_singleton entries entry ih =>
    have hself : ¬outranks entry entry = true := by
      rw [outranks_iff]
      omega
    rw [leader?_append]
    by_cases hnil : entries = []
    · subst hnil
      exact ⟨entry, by simp, rfl, by simpa using hself⟩
    · obtain ⟨best, hbest, hleads, hnone⟩ := ih hnil
      rw [hleads]
      dsimp only
      by_cases hless : outranks best entry = true
      · refine ⟨best, by simp [hbest], if_pos hless, ?_⟩
        intro other hother
        rcases List.mem_append.1 hother with hold | hnew
        · exact hnone other hold
        · obtain rfl := List.mem_singleton.1 hnew
          rw [outranks_iff] at hless ⊢
          omega
      · refine ⟨entry, by simp, if_neg hless, ?_⟩
        intro other hother
        rcases List.mem_append.1 hother with hold | hnew
        · have hrest := hnone other hold
          rw [outranks_iff] at hless hrest ⊢
          omega
        · obtain rfl := List.mem_singleton.1 hnew
          exact hself

/-- No byte is more frequent, and none that is as frequent is less. -/
structure IsTop (population : Array UInt8) (top : UInt8) : Prop where
  count_le : ∀ b, population.count b ≤ population.count top
  least : ∀ b, population.count b = population.count top → top ≤ b

private theorem mem_entries {population : Array UInt8} {entry : Nat × Nat} :
    entry ∈ (histogram population).toList.zipIdx ↔
      ∃ b : UInt8, entry = (population.count b, b.toNat) := by
  obtain ⟨count, byte⟩ := entry
  rw [List.mem_zipIdx_iff_getElem?, Array.getElem?_toList]
  constructor
  · intro h
    have hbyte : byte < 256 := by
      rw [← size_histogram population]
      exact (Array.getElem?_eq_some_iff.1 h).1
    have hvalue : (UInt8.ofNat byte).toNat = byte := UInt8.toNat_ofNat_of_lt' hbyte
    rw [← hvalue, histogram_getElem?, hvalue] at h
    exact ⟨.ofNat byte, by rw [hvalue, Option.some.inj h]⟩
  · rintro ⟨b, hb⟩
    obtain ⟨rfl, rfl⟩ := Prod.mk.inj hb
    exact histogram_getElem? population b

theorem topByte_isTop (population : Array UInt8) :
    ∃ top : UInt8, topByte population = top.toNat ∧ IsTop population top := by
  have hentries : (histogram population).toList.zipIdx ≠ [] := by
    apply List.ne_nil_of_mem
    exact mem_entries.2 ⟨0, rfl⟩
  obtain ⟨best, hbest, hleads, hnone⟩ := leader?_eq_some hentries
  obtain ⟨top, rfl⟩ := mem_entries.1 hbest
  have hrank : ∀ b, ¬outranks (population.count b, b.toNat) (population.count top, top.toNat) =
      true := fun b => hnone _ (mem_entries.2 ⟨b, rfl⟩)
  simp only [outranks_iff] at hrank
  refine ⟨top, ?_, ?_, ?_⟩
  · rw [topByte, hleads]
  · intro b
    have hb := hrank b
    omega
  · intro b hcount
    have hb := hrank b
    rw [UInt8.le_iff_toNat_le]
    omega

end Metrics

/-! ## Populations of worlds -/

private theorem Store.programBytes_eq_tapeAt (s : Store) {program : Nat}
    (hp : program < s.programs) :
    s.programBytes program = .ok (Metrics.tapeAt s.populationBytes s.tapeLength program) :=
  s.programBytes_eq_ok hp

theorem Store.populationBytes_div (s : Store) :
    s.populationBytes.size / s.tapeLength = s.programs := by
  rw [populationBytes, s.size_eq, Nat.mul_div_cancel _ s.tapeLength_pos]

namespace Metrics

/-- The histogram has an entry for each byte value, which is how often it occurs; the entries
add up to the number of cells, and the first is the number of zeros.  The different tapes are
counted among the whole ones, of which there are none if tapes have no cells, whatever their
order is and whatever shorter rest follows them.  The top byte is the least of the most frequent
values.  In a reachable world, the different tapes are those of its programs. -/
theorem counts_describe_population (population : Array UInt8) (tapeLength : Nat) :
    ((histogram population).size = 256 ∧
      ∀ b : UInt8, (histogram population)[b.toNat]? = some (population.count b)) ∧
    (histogram population).sum = population.size ∧
    (histogram population)[0]? = some (zeroCount population) ∧
    uniqueCount population tapeLength =
      ((Finset.range (population.size / tapeLength)).image
        (tapeAt population tapeLength)).card ∧
    uniqueCount population 0 = 0 ∧
    (∀ (tapes tapes' : List (List UInt8)) (rest rest' : List UInt8),
      (∀ tape ∈ tapes, tape.length = tapeLength) → tapes.Perm tapes' →
      rest.length < tapeLength → rest'.length < tapeLength →
      uniqueCount (tapes.flatten ++ rest).toArray tapeLength = tapes.toFinset.card ∧
      uniqueCount (tapes'.flatten ++ rest').toArray tapeLength = tapes.toFinset.card) ∧
    (∃ top : UInt8, topByte population = top.toNat ∧ IsTop population top) ∧
    ∀ w : World, w.Reachable →
      ∃ tapes : Nat → List UInt8,
        (∀ program < w.torus.size, w.store.programBytes program = .ok (tapes program)) ∧
        uniqueCount w.store.populationBytes w.store.tapeLength =
          ((Finset.range w.torus.size).image tapes).card := by
  refine ⟨⟨size_histogram population, histogram_getElem? population⟩, sum_histogram population,
    histogram_getElem? population 0, uniqueCount_eq population tapeLength, rfl, ?_,
    topByte_isTop population, ?_⟩
  · intro tapes tapes' rest rest' hlength hperm hrest hrest'
    have hlength' : ∀ tape ∈ tapes', tape.length = tapeLength :=
      fun tape htape => hlength tape (hperm.mem_iff.2 htape)
    refine ⟨uniqueCount_flatten hlength hrest, ?_⟩
    rw [uniqueCount_flatten hlength' hrest', List.toFinset_eq_of_perm _ _ hperm]
  · intro w h
    have hprograms : w.store.programs = w.torus.size := h.sound.programs_eq
    refine ⟨tapeAt w.store.populationBytes w.store.tapeLength, ?_, ?_⟩
    · intro program hprogram
      exact w.store.programBytes_eq_tapeAt (hprograms ▸ hprogram)
    · rw [uniqueCount_eq, w.store.populationBytes_div, hprograms]

/-- Three tapes in two orders, with and without a rest; two values that are equally frequent; and
the three programs of a world of zeros. -/
theorem counts_describe_population_tied :
    uniqueCount #[1, 2, 1, 2, 3, 4, 1] 2 = 2 ∧ uniqueCount #[3, 4, 1, 2, 1, 2] 2 = 2 ∧
    (topByte #[7, 3, 0, 7, 3] = 3 ∧ IsTop #[7, 3, 0, 7, 3] 3) ∧
    ∃ w, World.ofConfig ⟨2, 3, 1, .persistent, none⟩ = .ok w ∧
      ∃ tapes : Nat → List UInt8,
        (∀ program < 3, w.store.programBytes program = .ok (tapes program)) ∧
        uniqueCount w.store.populationBytes 2 = ((Finset.range 3).image tapes).card := by
  obtain ⟨-, -, -, -, -, htapes, ⟨top, htop, hisTop⟩, hworlds⟩ :=
    counts_describe_population #[7, 3, 0, 7, 3] 2
  obtain ⟨hwith, hwithout⟩ := htapes [[1, 2], [1, 2], [3, 4]] [[3, 4], [1, 2], [1, 2]] [1] []
    (by decide) (by decide) (by decide) (by decide)
  refine ⟨hwith, hwithout, ?_, ?_⟩
  · have hmost : 2 ≤ Array.count top #[7, 3, 0, 7, 3] := hisTop.count_le 3
    have hmem : top = 7 ∨ top = 3 ∨ top = 0 := by
      have h : top ∈ #[7, 3, 0, 7, 3] := Array.count_pos_iff.1 (Nat.lt_of_succ_lt hmost)
      simp at h
      grind
    rcases hmem with rfl | rfl | rfl
    · exact absurd (hisTop.least 3 (by decide)) (by decide)
    · exact ⟨htop, hisTop⟩
    · exact absurd hmost (by decide)
  · have hbuilt : World.ofConfig ⟨2, 3, 1, .persistent, none⟩ = .ok _ := rfl
    exact ⟨_, hbuilt, hworlds _ (.ofConfig hbuilt)⟩

end Metrics
end TapeTorus
