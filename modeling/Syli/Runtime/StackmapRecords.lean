import Mathlib
import Syli.Runtime.Stackmap

/-! Every record of a stackmap gets its entry, and the search finds it. -/
namespace Syli.Runtime

open Foundation

variable {bytes : Bytes} {a k n x function locations : Nat} {pc : BitVec 64}
variable {r : StkMapRecord} {rs : List StkMapRecord} {f : StkSizeRecord} {fs : List StkSizeRecord}
variable {m : StackMap} {entry : RecordEntry} {entries done rest : List RecordEntry}

section Lengths

theorem length_flatMap_const {α : Type} {g : α → Bytes} (h : ∀ y, (g y).length = k) (l : List α) :
    (l.flatMap g).length = k * l.length := by
  induction l with
  | nil => rfl
  | cons y l ih =>
    rw [List.flatMap_cons, List.length_append, h, ih, List.length_cons]
    ring

theorem length_padding (n : Nat) : (padding n).length = (8 - n % 8) % 8 := List.length_replicate ..

theorem Location.length_encode (l : Location) : l.encode.length = 12 := by
  simp [Location.encode]

theorem LiveOut.length_encode (l : LiveOut) : l.encode.length = 4 := by
  simp [LiveOut.encode]

theorem StkSizeRecord.length_encode (f : StkSizeRecord) : f.encode.length = 24 := by
  simp [StkSizeRecord.encode]

theorem StkMapRecord.length_front (r : StkMapRecord) :
    r.front.length = 16 + 12 * r.locations.length := by
  simp only [StkMapRecord.front, List.length_append, length_littleEndian,
    length_flatMap_const Location.length_encode]
  omega

theorem StkMapRecord.length_back (r : StkMapRecord) :
    r.back.length = 4 + 4 * r.liveOuts.length := by
  simp only [StkMapRecord.back, List.length_append, length_littleEndian,
    length_flatMap_const LiveOut.length_encode]
  omega

theorem StackMap.length_header (m : StackMap) : m.header.length = 16 := by
  simp [StackMap.header]

theorem StackMap.length_records (m : StackMap) :
    m.records.length = (m.functions.flatMap fun f => f.records).length := by
  simp [StackMap.records, List.length_flatMap]

end Lengths

section Records

theorem read_number (h : StandsAt bytes a (littleEndian k x)) (hk : 0 < k) (hx : x < 256 ^ k) :
    read bytes a k = .ok x := by
  rw [read, h.readNat hk hx]

/-- A field whose width in bits is that of its bytes. -/
theorem read_field {w : Nat} {v : BitVec w} (h : StandsAt bytes a (littleEndian k v.toNat))
    (hk : 0 < k) (hw : 2 ^ w = 256 ^ k) : read bytes a k = .ok v.toNat :=
  read_number h hk (hw ▸ v.isLt)

theorem standsAt_front (h : StandsAt bytes a r.encode) :
    StandsAt bytes (a + 8) (littleEndian 4 r.instrOffset.toNat) ∧
    StandsAt bytes (a + 14) (littleEndian 2 r.locations.length) ∧
    StandsAt bytes (a + 16) (r.locations.flatMap Location.encode) := by
  have hfront := (standsAt_append.mp (standsAt_append.mp h).1).1
  simp only [StkMapRecord.front, standsAt_append, length_littleEndian] at hfront
  exact ⟨hfront.2.1, hfront.2.2.2.1, hfront.2.2.2.2⟩

theorem standsAt_back (h : StandsAt bytes a r.encode) :
    StandsAt bytes (a + (16 + 12 * r.locations.length +
      (8 - (16 + 12 * r.locations.length) % 8) % 8) + 2) (littleEndian 2 r.liveOuts.length) := by
  have hback := (standsAt_append.mp (standsAt_append.mp h).2).1
  simp only [StkMapRecord.back, standsAt_append, length_littleEndian, List.length_append,
    r.length_front, length_padding] at hback
  exact hback.2.1

/-- The two formulas of the padding agree with the alignment. -/
theorem advanceRecord_eq (h : StandsAt bytes a r.encode) :
    advanceRecord bytes a = .ok (a + r.encode.length) := by
  have hlocations : read bytes (a + 14) 2 = .ok r.locations.length :=
    read_number (standsAt_front h).2.1 (by omega) r.numLocations_lt
  have hliveOuts := read_number (standsAt_back h) (by omega) r.numLiveOuts_lt
  have hat : (if r.locations.length * 12 % 8 = 4 then a + 16 + r.locations.length * 12 + 4
      else a + 16 + r.locations.length * 12) + 2 = a + (16 + 12 * r.locations.length +
        (8 - (16 + 12 * r.locations.length) % 8) % 8) + 2 := by
    split <;> omega
  have hlength : r.encode.length = 16 + 12 * r.locations.length +
      (8 - (16 + 12 * r.locations.length) % 8) % 8 + (4 + 4 * r.liveOuts.length +
        (8 - (4 + 4 * r.liveOuts.length) % 8) % 8) := by
    simp only [StkMapRecord.encode, List.length_append, r.length_front, r.length_back,
      length_padding]
  simp only [advanceRecord, hlocations, bind, Except.bind, hat, hliveOuts, pure, Except.pure,
    hlength]
  congr 1
  split <;> omega

theorem readLocation_eq {l : Location} (h : StandsAt bytes a l.encode) :
    readLocation bytes a = .ok l := by
  simp only [Location.encode, standsAt_append, length_littleEndian] at h
  obtain ⟨hkind, -, hsize, hdwarf, -, hoffset⟩ := h
  have hkind := read_field hkind (by omega) rfl
  have hsize : read bytes (a + 2) 2 = _ := read_field hsize (by omega) rfl
  have hdwarf : read bytes (a + 4) 2 = _ := read_field hdwarf (by omega) rfl
  have hoffset : read bytes (a + 8) 4 = _ := read_field hoffset (by omega) rfl
  simp [readLocation, hkind, hsize, hdwarf, hoffset, bind, Except.bind, pure, Except.pure]

theorem locationLoop_eq {ls : List Location} {i : Nat}
    (h : StandsAt bytes (locations + 12 * i) (ls.flatMap Location.encode)) :
    locationLoop bytes locations ls.length i = .ok ls := by
  induction ls generalizing i with
  | nil => rfl
  | cons l ls ih =>
    rw [List.flatMap_cons, standsAt_append, l.length_encode] at h
    have hrest := ih (i := i + 1) h.2
    simp only [List.length_cons, locationLoop, readLocation_eq h.1, hrest, bind, Except.bind, pure,
      Except.pure]

end Records

section Table

def address (x : StkSizeRecord × StkMapRecord) : BitVec 64 :=
  x.1.addr + x.2.instrOffset.setWidth 64

/-- The entry of a record: its address, and pointers to it and to its locations. -/
structure Describes (bytes : Bytes) (x : StkSizeRecord × StkMapRecord) (entry : RecordEntry) :
    Prop where
  pc : entry.pc = address x
  record : ∃ a, entry.record = some a ∧ StandsAt bytes a x.2.encode
  locations : entryLocations bytes entry = .ok x.2.locations

/-- The entries of a function whose records start at `a`. -/
def entriesOf (f : StkSizeRecord) (a : Nat) : List StkMapRecord → List RecordEntry
  | [] => []
  | r :: rs => ⟨address (f, r), some a, some (a + 16)⟩ :: entriesOf f (a + r.encode.length) rs

def entriesFrom (a : Nat) : List StkSizeRecord → List RecordEntry
  | [] => []
  | f :: fs =>
    entriesOf f a f.records ++ entriesFrom (a + (f.records.flatMap StkMapRecord.encode).length) fs

theorem length_entriesOf : (entriesOf f a rs).length = rs.length := by
  induction rs generalizing a with
  | nil => rfl
  | cons r rs ih => simp [entriesOf, ih]

theorem describes_record (h : StandsAt bytes a r.encode) :
    Describes bytes (f, r) ⟨address (f, r), some a, some (a + 16)⟩ := by
  obtain ⟨-, hnum, hlocations⟩ := standsAt_front h
  refine ⟨rfl, ⟨a, rfl, h⟩, ?_⟩
  have hread : read bytes (a + 14) 2 = .ok r.locations.length :=
    read_number hnum (by omega) r.numLocations_lt
  simp only [entryLocations, hread, bind, Except.bind]
  exact locationLoop_eq (i := 0) hlocations

theorem describes_entriesOf (h : StandsAt bytes a (rs.flatMap StkMapRecord.encode)) :
    List.Forall₂ (Describes bytes) (rs.map fun r => (f, r)) (entriesOf f a rs) := by
  induction rs generalizing a with
  | nil => exact .nil
  | cons r rs ih =>
    rw [List.flatMap_cons, standsAt_append] at h
    exact .cons (describes_record h.1) (ih h.2)

theorem describes_entriesFrom
    (h : StandsAt bytes a (fs.flatMap fun f => f.records.flatMap StkMapRecord.encode)) :
    List.Forall₂ (Describes bytes) (fs.flatMap fun f => f.records.map fun r => (f, r))
      (entriesFrom a fs) := by
  induction fs generalizing a with
  | nil => exact .nil
  | cons f fs ih =>
    rw [List.flatMap_cons, standsAt_append] at h
    exact List.rel_append (describes_entriesOf h.1) (ih h.2)

theorem writeEntry_append (hrest : rest ≠ []) : writeEntry (done ++ rest) done.length entry =
    .ok ((done ++ [entry]) ++ rest.drop 1) := by
  cases rest with
  | nil => exact (hrest rfl).elim
  | cons e rest =>
    rw [writeEntry, if_pos (by simp)]
    simp

/-- The inner loop fills one entry for each record. -/
theorem recordLoop_eq (a : Nat) (done rest : List RecordEntry)
    (hf : StandsAt bytes function (littleEndian 8 f.addr.toNat))
    (h : StandsAt bytes a (rs.flatMap StkMapRecord.encode)) (hrest : rs.length ≤ rest.length) :
    recordLoop bytes function rs.length ⟨done ++ rest, done.length, a⟩ =
      .ok ⟨(done ++ entriesOf f a rs) ++ rest.drop rs.length, done.length + rs.length,
        a + (rs.flatMap StkMapRecord.encode).length⟩ := by
  induction rs generalizing a done rest with
  | nil => simp [recordLoop, entriesOf]
  | cons r rs ih =>
    rw [List.flatMap_cons, standsAt_append] at h
    have hne : rest ≠ [] := by
      rintro rfl
      simp at hrest
    have haddr : read bytes function 8 = .ok f.addr.toNat := read_field hf (by omega) rfl
    have hoffset : read bytes (a + 8) 4 = .ok r.instrOffset.toNat :=
      read_field (standsAt_front h.1).1 (by omega) rfl
    have haddress : BitVec.ofNat 64 (f.addr.toNat + r.instrOffset.toNat) = address (f, r) := by
      apply BitVec.eq_of_toNat_eq
      have := r.instrOffset.isLt
      simp only [address, BitVec.toNat_ofNat, BitVec.toNat_add, BitVec.toNat_setWidth]
      omega
    have hnext := ih (a + r.encode.length)
      (done ++ [⟨address (f, r), some a, some (a + 16)⟩]) (rest.drop 1) h.2
      (by simp at hrest ⊢; omega)
    rw [List.length_append, List.length_singleton] at hnext
    simp only [List.length_cons, recordLoop, haddr, hoffset, haddress, writeEntry_append hne,
      advanceRecord_eq h.1, bind, Except.bind, hnext]
    simp [entriesOf, Nat.add_assoc, Nat.add_comm 1]

/-- The outer loop fills the entries of all functions. -/
theorem functionLoop_eq (a : Nat) (done rest : List RecordEntry)
    (hfs : StandsAt bytes function (fs.flatMap StkSizeRecord.encode))
    (h : StandsAt bytes a (fs.flatMap fun f => f.records.flatMap StkMapRecord.encode))
    (hrest : (fs.flatMap fun f => f.records).length ≤ rest.length) (hlt : rest.length < 2 ^ 32) :
    ∃ index current, functionLoop bytes fs.length function ⟨done ++ rest, done.length, a⟩ =
      .ok ⟨(done ++ entriesFrom a fs) ++ rest.drop (fs.flatMap fun f => f.records).length, index,
        current⟩ := by
  induction fs generalizing a done rest function with
  | nil => exact ⟨done.length, a, by simp [functionLoop, entriesFrom]⟩
  | cons f fs ih =>
    rw [List.flatMap_cons, standsAt_append, f.length_encode] at hfs
    rw [List.flatMap_cons, standsAt_append] at h
    rw [List.flatMap_cons, List.length_append] at hrest
    obtain ⟨hf, hfs⟩ := hfs
    simp only [StkSizeRecord.encode, standsAt_append, length_littleEndian] at hf
    have hnum : read bytes (function + 16) 8 = .ok f.records.length :=
      read_number hf.2.2 (by omega) (by norm_num; omega)
    have hloop := recordLoop_eq a done rest hf.1 h.1 (by omega)
    obtain ⟨index, current, hnext⟩ := ih
      (a + (f.records.flatMap StkMapRecord.encode).length) (done ++ entriesOf f a f.records)
      (rest.drop f.records.length) hfs h.2
      (by rw [List.length_drop]; omega) (by rw [List.length_drop]; omega)
    rw [List.length_append, length_entriesOf] at hnext
    refine ⟨index, current, ?_⟩
    simp only [List.length_cons, functionLoop, hnum, hloop, bind, Except.bind, hnext]
    simp [entriesFrom]

theorem build_eq {calloc : Nat → Bool} (hcalloc : calloc m.records.length = true)
    {table : RecordTable} (htable : table.stackmapRecordEntry = none) :
    buildStackmapRecordEntry calloc m.encode table =
        .ok ⟨some (entriesFrom (16 + 24 * m.functions.length + m.constants.length * 8) m.functions),
          m.records.length⟩ ∧
      List.Forall₂ (Describes m.encode) m.records
        (entriesFrom (16 + 24 * m.functions.length + m.constants.length * 8) m.functions) := by
  have hall : StandsAt m.encode 0 (m.header ++ (m.functions.flatMap StkSizeRecord.encode ++
      (m.constants.flatMap (fun c => littleEndian 8 c.toNat) ++
        m.functions.flatMap fun f => f.records.flatMap StkMapRecord.encode))) :=
    standsAt_self m.encode
  rw [standsAt_append, standsAt_append, standsAt_append, m.length_header,
    length_flatMap_const StkSizeRecord.length_encode,
    length_flatMap_const fun _ => length_littleEndian _ _] at hall
  obtain ⟨hheader, hfunctions, -, hrecords⟩ := hall
  simp only [StackMap.header, standsAt_append, length_littleEndian] at hheader
  obtain ⟨-, -, -, hF, hC, hR⟩ := hheader
  have hlt := m.numRecords_lt
  rw [← m.length_records] at hlt
  have hF : read m.encode 4 4 = .ok m.functions.length :=
    read_number hF (by omega) m.numFunctions_lt
  have hC : read m.encode 8 4 = .ok m.constants.length :=
    read_number hC (by omega) m.numConstants_lt
  have hR : read m.encode 12 4 = .ok m.records.length := read_number hR (by omega) hlt
  have hat : 0 + 16 + 24 * m.functions.length + 8 * m.constants.length =
      16 + 24 * m.functions.length + m.constants.length * 8 := by omega
  rw [hat] at hrecords
  refine ⟨?_, describes_entriesFrom hrecords⟩
  obtain ⟨index, current, hloop⟩ := functionLoop_eq
    (16 + 24 * m.functions.length + m.constants.length * 8) []
    (List.replicate m.records.length ⟨0, none, none⟩) hfunctions hrecords
    (by rw [List.length_replicate, m.length_records]) (by rwa [List.length_replicate])
  rw [← m.length_records, List.drop_of_length_le (by simp)] at hloop
  simp only [List.nil_append, List.append_nil, List.length_nil] at hloop
  rw [buildStackmapRecordEntry, htable]
  simp only [Option.isSome_none, Bool.false_eq_true, if_false, hF, hC, hR, hcalloc, if_true, bind,
    Except.bind, pure, Except.pure]
  rw [show (16 : Nat) = 0 + 16 from rfl, hloop]

end Table

section Lookup

variable {es : List RecordEntry} {low high : Int} {i : Nat}

/-- The search finds an entry between its bounds. -/
theorem searchLoop_found (hsorted : es.Pairwise fun e e' => e.pc < e'.pc) (hlow : 0 ≤ low)
    (hhigh : high ≤ es.length) (hentry : es[i]? = some entry) (hi : low ≤ i ∧ i < high) :
    searchLoop es entry.pc low high = .ok entry := by
  have hlt : ∀ {j j' : Nat} {e e' : RecordEntry}, es[j]? = some e → es[j']? = some e' → j < j' →
      e.pc < e'.pc := by
    intro j j' e e' he he' hj
    obtain ⟨hj₁, rfl⟩ := List.getElem?_eq_some_iff.mp he
    obtain ⟨hj₂, rfl⟩ := List.getElem?_eq_some_iff.mp he'
    exact List.pairwise_iff_getElem.mp hsorted j j' hj₁ hj₂ hj
  fun_induction searchLoop es entry.pc low high with
  | case1 low high hloop mid hnone =>
    have hlength := List.getElem?_eq_none_iff.mp hnone
    omega
  | case2 low high hloop mid found hfound heq =>
    rcases Nat.lt_trichotomy mid.toNat i with h | h | h
    · exact absurd (heq ▸ hlt hfound hentry h) (BitVec.lt_irrefl _)
    · rw [h, hentry] at hfound
      obtain rfl := Option.some.inj hfound
      rfl
    · exact absurd (heq ▸ hlt hentry hfound h) (BitVec.lt_irrefl _)
  | case3 low high hloop mid found hfound hne hbefore ih =>
    refine ih hlow (by omega) ⟨hi.1, ?_⟩
    by_contra hnot
    rcases Nat.lt_or_eq_of_le (show mid.toNat ≤ i by omega) with h | h
    · exact absurd (BitVec.lt_trans hbefore (hlt hfound hentry h)) (BitVec.lt_irrefl _)
    · rw [h, hentry] at hfound
      exact hne (congrArg RecordEntry.pc (Option.some.inj hfound)).symm
  | case4 low high hloop mid found hfound hne hafter ih =>
    refine ih (by omega) hhigh ⟨?_, hi.2⟩
    by_contra hnot
    rcases Nat.lt_or_eq_of_le (show i ≤ mid.toNat by omega) with h | h
    · exact hafter (hlt hentry hfound h)
    · rw [← h, hentry] at hfound
      exact hne (congrArg RecordEntry.pc (Option.some.inj hfound)).symm
  | case5 low high hloop => omega

/-- The search ends without an entry where none has the pc. -/
theorem searchLoop_missing (hlow : 0 ≤ low) (hhigh : high ≤ es.length)
    (hmissing : ∀ e ∈ es, e.pc ≠ pc) : searchLoop es pc low high = .ok .missing := by
  fun_induction searchLoop es pc low high with
  | case1 low high hloop mid hnone =>
    have hlength := List.getElem?_eq_none_iff.mp hnone
    omega
  | case2 low high hloop mid found hfound heq =>
    exact (hmissing found (List.mem_of_getElem? hfound) heq).elim
  | case3 low high hloop mid found hfound hne hbefore ih => exact ih hlow (by omega)
  | case4 low high hloop mid found hfound hne hafter ih => exact ih (by omega) hhigh
  | case5 low high hloop => rfl

/-- From 2 ^ 31 on the length is negative as an `int`. -/
theorem toInt_length (hn : n < 2 ^ 32) :
    (BitVec.ofNat 32 n).toInt = if n < 2 ^ 31 then (n : Int) else (n : Int) - 2 ^ 32 := by
  rw [BitVec.toInt_eq_toNat_cond, BitVec.toNat_ofNat, Nat.mod_eq_of_lt hn]
  split <;> split <;> omega

theorem lookup_eq (hn : es.length < 2 ^ 31) :
    lookupRecordEntry ⟨some es, es.length⟩ pc = searchLoop es pc 0 es.length := by
  change searchLoop es pc 0 (BitVec.ofNat 32 es.length).toInt = _
  rw [toInt_length (by omega), if_pos hn]

theorem lookup_long (hlong : 2 ^ 31 ≤ es.length) (hn : es.length < 2 ^ 32) :
    lookupRecordEntry ⟨some es, es.length⟩ pc = .ok .missing := by
  change searchLoop es pc 0 (BitVec.ofNat 32 es.length).toInt = _
  rw [toInt_length hn, if_neg (by omega), searchLoop]
  rw [if_neg (by omega)]

end Lookup

section Claim

/-- The records stand in the order of their addresses. -/
def Increasing (m : StackMap) : Prop := (m.records.map address).Pairwise (· < ·)

/-- The search returns the entry of the record with the address, and the empty one where there is no
such record. -/
structure LooksUp (m : StackMap) (es : List RecordEntry) : Prop where
  found : ∀ (i : Nat) x entry, m.records[i]? = some x → es[i]? = some entry →
    lookupRecordEntry ⟨some es, m.records.length⟩ (address x) = .ok entry
  missing : ∀ pc, (∀ x ∈ m.records, address x ≠ pc) →
    lookupRecordEntry ⟨some es, m.records.length⟩ pc = .ok .missing

theorem pcs_eq {xs : List (StkSizeRecord × StkMapRecord)}
    (h : List.Forall₂ (Describes bytes) xs es) : es.map RecordEntry.pc = xs.map address := by
  induction h with
  | nil => rfl
  | cons hd _ ih => rw [List.map_cons, List.map_cons, ih, hd.pc]

theorem looksUp_of_short (hdescribes : List.Forall₂ (Describes bytes) m.records es)
    (hincreasing : Increasing m) (hn : m.records.length < 2 ^ 31) : LooksUp m es := by
  have hlength := hdescribes.length_eq
  have hpcs := pcs_eq hdescribes
  have hsorted : es.Pairwise fun e e' => e.pc < e'.pc := by
    rw [Increasing, ← hpcs] at hincreasing
    exact List.pairwise_map.mp hincreasing
  have hlookup : ∀ pc, lookupRecordEntry ⟨some es, m.records.length⟩ pc =
      searchLoop es pc 0 es.length := by
    intro pc
    rw [hlength]
    exact lookup_eq (hlength ▸ hn)
  refine ⟨fun i x entry hx hentry => ?_, fun pc hmissing => ?_⟩
  · have hpc : entry.pc = address x := by
      have h := congrArg (·[i]?) hpcs
      simpa [hx, hentry] using h
    have hi := (List.getElem?_eq_some_iff.mp hentry).1
    rw [hlookup, ← hpc]
    exact searchLoop_found hsorted le_rfl le_rfl hentry ⟨by omega, by omega⟩
  · rw [hlookup]
    refine searchLoop_missing le_rfl le_rfl fun e he heq => ?_
    have hmem : pc ∈ m.records.map address := by
      rw [← hpcs]
      exact heq ▸ List.mem_map_of_mem he
    obtain ⟨x, hx, hxpc⟩ := List.mem_map.mp hmem
    exact hmissing x hx hxpc

theorem not_looksUp_of_long (hdescribes : List.Forall₂ (Describes bytes) m.records es)
    (hlong : 2 ^ 31 ≤ m.records.length) : ¬ LooksUp m es := by
  intro h
  have hlength := hdescribes.length_eq
  have hlt := m.numRecords_lt
  rw [← m.length_records] at hlt
  obtain ⟨x, hx⟩ : ∃ x, m.records[0]? = some x := ⟨_, List.getElem?_eq_getElem (by omega)⟩
  obtain ⟨entry, hentry⟩ : ∃ entry, es[0]? = some entry := ⟨_, List.getElem?_eq_getElem (by omega)⟩
  have hfound := h.found 0 x entry hx hentry
  rw [hlength, lookup_long (by omega) (by omega)] at hfound
  have hdescribed : Describes bytes x entry := by
    have hget := List.forall₂_iff_get.mp hdescribes
    obtain ⟨hi, rfl⟩ := List.getElem?_eq_some_iff.mp hx
    obtain ⟨hi', rfl⟩ := List.getElem?_eq_some_iff.mp hentry
    exact hget.2 0 hi hi'
  obtain ⟨a, ha, -⟩ := hdescribed.record
  rw [← Except.ok.inj hfound] at ha
  cases ha

/-- Every record gets its entry, all reads lie in the section, and the search finds the entries as
long as their number is an `int`. -/
theorem stackmap_records_found (m : StackMap) (calloc : Nat → Bool) (table : RecordTable)
    (hcalloc : calloc m.records.length = true) (htable : table.stackmapRecordEntry = none) :
    ∃ es, buildStackmapRecordEntry calloc m.encode table = .ok ⟨some es, m.records.length⟩ ∧
      List.Forall₂ (Describes m.encode) m.records es ∧
      ((Increasing m → LooksUp m es) ↔ (Increasing m → m.records.length < 2 ^ 31)) := by
  obtain ⟨hbuild, hdescribes⟩ := build_eq hcalloc htable
  refine ⟨_, hbuild, hdescribes, fun h hincreasing => ?_, fun h hincreasing => ?_⟩
  · by_contra hlong
    exact not_looksUp_of_long hdescribes (by omega) (h hincreasing)
  · exact looksUp_of_short hdescribes hincreasing (h hincreasing)

/-- A function with two records, one without records and one whose record has two live outs; the
locations of the first and the third record are padded. -/
def threeRecords : StackMap where
  functions := [
    ⟨4096, 16, [⟨7, 12, 0, [⟨3, 8, 7, 24⟩], [], by decide, by decide⟩,
      ⟨8, 40, 0, [⟨3, 8, 7, 24⟩, ⟨2, 8, 6, 32⟩], [⟨0, 8⟩], by decide, by decide⟩]⟩,
    ⟨8192, 0, []⟩,
    ⟨12288, 48, [⟨9, 4, 0, [⟨1, 8, 3, 0⟩], [⟨0, 8⟩, ⟨5, 8⟩], by decide, by decide⟩]⟩]
  constants := [5, 6]
  numFunctions_lt := by decide
  numConstants_lt := by decide
  numRecords_lt := by decide

theorem stackmap_records_found_three :
    ∃ es, buildStackmapRecordEntry (fun _ => true) threeRecords.encode ⟨none, 0⟩ =
        .ok ⟨some es, threeRecords.records.length⟩ ∧
      List.Forall₂ (Describes threeRecords.encode) threeRecords.records es ∧
      ((Increasing threeRecords → LooksUp threeRecords es) ↔
        (Increasing threeRecords → threeRecords.records.length < 2 ^ 31)) :=
  stackmap_records_found threeRecords (fun _ => true) ⟨none, 0⟩ rfl rfl

/-- A record at the offset, without locations. -/
def bareRecord (i : Nat) : StkMapRecord :=
  ⟨0, BitVec.ofNat 32 i, 0, [], [], by decide, by decide⟩

/-- One function with `n` records. -/
def manyRecords (n : Nat) (hn : n < 2 ^ 32) : StackMap where
  functions := [⟨0, 0, (List.range n).map bareRecord⟩]
  constants := []
  numFunctions_lt := by simp
  numConstants_lt := by simp
  numRecords_lt := by simpa using hn

theorem increasing_manyRecords (hn : n < 2 ^ 32) : Increasing (manyRecords n hn) := by
  have haddresses : (manyRecords n hn).records.map address =
      (List.range n).map fun i => (BitVec.ofNat 32 i).setWidth 64 := by
    simp [StackMap.records, manyRecords, address, bareRecord, Function.comp_def]
  rw [Increasing, haddresses, List.pairwise_map]
  refine List.pairwise_lt_range.imp_of_mem fun {i j} hi hj hij => ?_
  have hi := List.mem_range.mp hi
  have hj := List.mem_range.mp hj
  rw [BitVec.lt_def, BitVec.toNat_setWidth, BitVec.toNat_setWidth, BitVec.toNat_ofNat,
    BitVec.toNat_ofNat]
  omega

theorem length_manyRecords (hn : n < 2 ^ 32) : (manyRecords n hn).records.length = n := by
  simp [StackMap.records, manyRecords]

def longMap : StackMap := manyRecords (2 ^ 31) (by omega)

/-- With 2 ^ 31 records none is found. -/
theorem stackmap_records_lost :
    ¬ ∃ es, buildStackmapRecordEntry (fun _ => true) longMap.encode ⟨none, 0⟩ =
        .ok ⟨some es, longMap.records.length⟩ ∧
      List.Forall₂ (Describes longMap.encode) longMap.records es ∧
      (Increasing longMap → LooksUp longMap es) := by
  rintro ⟨es, -, hdescribes, hlooks⟩
  refine not_looksUp_of_long hdescribes ?_ (hlooks (increasing_manyRecords _))
  exact (length_manyRecords _).ge

end Claim

end Syli.Runtime
