import PittCs.Rcdb.TableQueries

/-!
# A table refines a finite map

Runs of `insert`, `update` and removals on a new table against the same calls on
a finite map from ids to records. The codes agree, and afterwards the answers of
the table are those of the map, up to one field: `retrieve_by_country` does not
pad the country of the records it returns.
-/

namespace PittCs.Rcdb

open Std PittCs.Lib BlockAllocator List

/-- A call that changes a table. -/
inductive TableCall where
  | insert (coffeeID : Int) (coffeeName : Str) (intensity : Int) (countryOfOrigin : Str)
  | update (coffeeID intensity : Int)
  | remove (coffeeID : Int)

namespace Table

instance (coffeeID : Int) (coffeeName : Str) (intensity : Int) (countryOfOrigin : Str) :
    Decidable (ValidArgs coffeeID coffeeName intensity countryOfOrigin) :=
  decidable_of_iff (0 ≤ coffeeID ∧ (0 < coffeeName.length ∧ coffeeName.length ≤ 8) ∧
      0 ≤ intensity ∧ 0 < countryOfOrigin.length ∧ countryOfOrigin.length ≤ 8)
    ⟨fun h => ⟨h.1, h.2.1, h.2.2.1, h.2.2.2⟩, fun h => ⟨h.1, h.2, h.3, h.4⟩⟩

end Table

namespace TableCall

/-- The Bloom filter can hash the id. `insert` looks at the sign first. -/
def Hashable : TableCall → Prop
  | insert coffeeID _ _ _ => coffeeID < 0 ∨ BloomFilter.Hashable coffeeID
  | update coffeeID _ => BloomFilter.Hashable coffeeID
  | remove coffeeID => BloomFilter.Hashable coffeeID

instance : (call : TableCall) → Decidable call.Hashable
  | insert _ _ _ _ => inferInstanceAs (Decidable (_ ∨ _))
  | update _ _ => inferInstanceAs (Decidable (_ ∧ _))
  | remove _ => inferInstanceAs (Decidable (_ ∧ _))

/-- The call on a table, with its code. -/
def onTable (t : Table) (s : Store) : TableCall → Except Err (Table × Store × Int)
  | insert coffeeID coffeeName intensity countryOfOrigin =>
    t.insert s coffeeID coffeeName intensity countryOfOrigin
  | update coffeeID intensity => t.update s coffeeID intensity
  | remove coffeeID => t.remove s coffeeID

/-- The call on a finite map, with its code. -/
def onMap (m : Dict Int Entry) : TableCall → Dict Int Entry × Int
  | insert coffeeID coffeeName intensity countryOfOrigin =>
    if Table.ValidArgs coffeeID coffeeName intensity countryOfOrigin ∧ m.get? coffeeID = none then
      (m.set coffeeID ⟨coffeeName, intensity, countryOfOrigin⟩, 0)
    else (m, -1)
  | update coffeeID intensity =>
    match m.get? coffeeID with
    | none => (m, -1)
    | some e => (m.set coffeeID { e with intensity }, 0)
  | remove coffeeID =>
    match m.get? coffeeID with
    | none => (m, -1)
    | some _ => (m.erase coffeeID, 0)

/-- Calls on a table, with their codes. -/
def runTable (t : Table) (s : Store) : List TableCall → Except Err (Table × Store × List Int)
  | [] => .ok (t, s, [])
  | call :: calls => do
    let (t, s, code) ← call.onTable t s
    let (t, s, codes) ← runTable t s calls
    return (t, s, code :: codes)

/-- Calls on a finite map, with their codes. -/
def runMap (m : Dict Int Entry) : List TableCall → Dict Int Entry × List Int
  | [] => (m, [])
  | call :: calls =>
    let (m, code) := call.onMap m
    let (m, codes) := runMap m calls
    (m, code :: codes)

end TableCall

namespace Table

variable {t : Table} {s : Store} {F : Cells} {m : Dict Int Entry}

/-! ## The codes -/

theorem Ok.insert (h : t.Ok s F m) {id intensity : Int} {coffeeName c : Str}
    (hid : id < 0 ∨ BloomFilter.Hashable id) :
    Returns (t.insert s id coffeeName intensity c) fun r =>
      r.2.2 = ((TableCall.insert id coffeeName intensity c).onMap m).2 ∧
      t.Leaves s F r.1 r.2.1 ((TableCall.insert id coffeeName intensity c).onMap m).1 := by
  unfold TableCall.onMap
  dsimp only
  by_cases hvalid : ValidArgs id coffeeName intensity c
  · have hpos := hvalid.id
    have hhash : BloomFilter.Hashable id := hid.resolve_left (by omega)
    rw [insert_of_valid hvalid]
    cases hget : m.get? id with
    | none =>
      -- whatever the Bloom filter says, the id is not in the index
      have hout : id ∉ t.mem.coffeeIdIndex := by
        intro hmem
        have hsome := TreeMap.mem_iff_isSome_getElem?.mp hmem
        rw [h.not_found hpos hget] at hsome
        cases hsome
      rw [if_pos ⟨hvalid, rfl⟩, BloomFilter.contains_eq h.full hhash]
      simp only [bind, Except.bind]
      rw [if_neg fun hdup => hout hdup.2]
      exact insertNew_spec h hvalid hhash hget
    | some e =>
      rcases h.find hget with ⟨p, c', r, hindex, -, -, -, -, -⟩
      have hin : id ∈ t.mem.coffeeIdIndex := by
        refine TreeMap.mem_iff_isSome_getElem?.mpr ?_
        rw [hindex]
        rfl
      rw [if_neg (by simp), (h.bloom id e hget).2]
      simp only [bind, Except.bind]
      rw [if_pos ⟨trivial, hin⟩]
      exact returns_ok ⟨rfl, h.leaves⟩
  · rw [if_neg fun hand => hvalid hand.1, insert_of_not_valid hvalid]
    exact returns_ok ⟨rfl, h.leaves⟩

theorem Ok.update (h : t.Ok s F m) {id intensity : Int} (hid : BloomFilter.Hashable id) :
    Returns (t.update s id intensity) fun r =>
      r.2.2 = ((TableCall.update id intensity).onMap m).2 ∧
      t.Leaves s F r.1 r.2.1 ((TableCall.update id intensity).onMap m).1 := by
  dsimp only [TableCall.onMap]
  cases hget : m.get? id with
  | none =>
    rw [update_absent h hid hget]
    exact returns_ok ⟨rfl, h.leaves⟩
  | some e => exact update_present h hget

theorem Ok.remove (h : t.Ok s F m) {id : Int} (hid : BloomFilter.Hashable id) :
    Returns (t.remove s id) fun r => r.2.2 = ((TableCall.remove id).onMap m).2 ∧
      t.Leaves s F r.1 r.2.1 ((TableCall.remove id).onMap m).1 := by
  dsimp only [TableCall.onMap]
  cases hget : m.get? id with
  | none => exact remove_absent h hid hget
  | some e => exact remove_present h hget

/-- One call changes the table as it changes the map. -/
theorem Ok.call (h : t.Ok s F m) {call : TableCall} (hcall : call.Hashable) :
    Returns (call.onTable t s) fun r => r.2.2 = (call.onMap m).2 ∧
      t.Leaves s F r.1 r.2.1 (call.onMap m).1 := by
  cases call with
  | insert id coffeeName intensity c => exact h.insert hcall
  | update id intensity => exact h.update hcall
  | remove id => exact h.remove hcall

/-- A run of calls changes the table as it changes the map. -/
theorem Ok.run (h : t.Ok s F m) (calls : List TableCall)
    (hcalls : ∀ call ∈ calls, call.Hashable) :
    Returns (TableCall.runTable t s calls) fun r => r.2.2 = (TableCall.runMap m calls).2 ∧
      t.Leaves s F r.1 r.2.1 (TableCall.runMap m calls).1 := by
  induction calls generalizing t s F m with
  | nil => exact returns_ok ⟨rfl, h.leaves⟩
  | cons call calls ih =>
    unfold TableCall.runTable TableCall.runMap
    refine (h.call (hcalls call mem_cons_self)).bind ?_
    rintro ⟨t₁, s₁, code⟩ ⟨hcode, F₁, h₁, hname₁, hframe₁⟩
    refine (ih h₁ fun c hc => hcalls c (mem_cons_of_mem _ hc)).bind ?_
    rintro ⟨t₂, s₂, codes⟩ ⟨hcodes, F₂, h₂, hname₂, hframe₂⟩
    dsimp only at hcode hcodes hname₁ hname₂ hframe₁ hframe₂
    rw [hname₁] at hframe₂
    refine returns_ok ⟨?_, F₂, h₂, hname₂.trans hname₁, hframe₁.trans hframe₂⟩
    dsimp only
    rw [hcode, hcodes]

/-! ## A new table -/

/-- A new directory changes no page. -/
theorem holds_mkdir (hs : s.Holds F) {val : Str} (hnew : val ∉ s.disk) (dir : TableDir) :
    Store.Holds { s with disk := s.disk.insert val dir } F := by
  have hpages : ∀ k : PageInfo, (s.disk.page? k).isSome →
      Disk.page? (s.disk.insert val dir) k = s.disk.page? k := by
    intro k hk
    have hne : k.tableName ≠ val := by
      rintro rfl
      have hnone : s.disk[k.tableName]? = none := TreeMap.getElem?_eq_none hnew
      simp [Disk.page?, hnone] at hk
    unfold Disk.page?
    rw [getElem?_insert_if, if_neg hne]
  constructor
  · refine ⟨hs.wf.allocated_le, hs.wf.index_lt, hs.wf.index_inj, hs.wf.full_nonempty, ?_⟩
    intro k c hc hdirty
    have hk := hs.wf.dirty_page k c hc hdirty
    dsimp only
    rw [hpages k hk]
    exact hk
  · intro tb c o v hv
    exact (hs.sat tb c o v hv).congr rfl (fun _ _ => rfl) (hpages _ (hs.page hv))

theorem appendFirstPages_spec {mem : FileManager} (hs : s.Holds F) (hm : mem.Fits s.disk) :
    Returns (appendFirstPages mem s) fun r => r.2.Holds F ∧ mem.Extends s.disk r.1 r.2.disk ∧
      r.1.coffeeIdIndex = mem.coffeeIdIndex := by
  unfold appendFirstPages
  refine (FileManager.appendPages_spec hs hm .coffeeID 1).bind ?_
  rintro ⟨m₁, s₁⟩ ⟨hs₁, hext₁, hindex₁, -⟩
  refine (FileManager.appendPages_spec hs₁ hext₁.fits .coffeeName 1).bind ?_
  rintro ⟨m₂, s₂⟩ ⟨hs₂, hext₂, hindex₂, -⟩
  refine (FileManager.appendPages_spec hs₂ hext₂.fits .intensity 1).bind ?_
  rintro ⟨m₃, s₃⟩ ⟨hs₃, hext₃, hindex₃, -⟩
  refine (FileManager.appendPages_spec hs₃ hext₃.fits .countryOfOrigin 1).mono ?_
  rintro ⟨m₄, s₄⟩ ⟨hs₄, hext₄, hindex₄, -⟩
  exact ⟨hs₄, hext₁.trans (hext₂.trans (hext₃.trans hext₄)),
    hindex₄.trans (hindex₃.trans (hindex₂.trans hindex₁))⟩

/-- A new table holds the empty map. -/
theorem create_spec (hs : s.Holds F) {val : Str} (hpos : 0 < val.length) (hle : val.length ≤ 32)
    (hnew : val ∉ s.disk) :
    Returns (create s val) fun r => r.1.Ok r.2 F Dict.empty ∧ r.1.name = val ∧
      Frame val s F r.2 F := by
  have hs₁ := holds_mkdir hs hnew ⟨fun _ => [], ∅, none⟩
  have hfits : (FileManager.init val).Fits (s.disk.insert val ⟨fun _ => [], ∅, none⟩) :=
    ⟨hle, _, TreeMap.getElem?_insert_self, fun _ => rfl⟩
  have hmiss : ¬ (val.length = 0 ∨ val ∈ s.disk) := by
    rintro (hzero | hmem)
    · omega
    · exact hnew hmem
  unfold create
  rw [if_neg (by omega)]
  dsimp only
  rw [if_neg hmiss]
  refine (appendFirstPages_spec hs₁ hfits).bind ?_
  rintro ⟨mem, s₂⟩ ⟨hs₂, hext, hindex⟩
  dsimp only at hs₂ hext hindex
  refine returns_ok ⟨?_, rfl, ⟨fun _ _ => rfl, ?_⟩⟩
  · constructor
    case holds => exact hs₂
    case fits => exact hext.fits
    case name_eq => exact hext.name_eq
    case inv => exact inv_init
    case stored =>
      dsimp only
      rw [hindex]
      exact Stored.empty F val
    case full => exact BloomFilter.full_init
    case bloom =>
      intro id e hget
      cases hget
    case counts =>
      intro i
      unfold countOf
      simp [init, countIn, Dict.empty]
  · intro tb htb
    have hold := hext.others tb htb
    rw [getElem?_insert_if, if_neg htb] at hold
    exact hold

theorem holds_nothing (hwf : ColumnBuffer.WF s.buf s.disk) : s.Holds fun _ _ _ => none := by
  refine ⟨hwf, ?_⟩
  intro tb c o v hv
  cases hv

theorem ok_of_create {s₀ : Store} {val : Str} (hwf : ColumnBuffer.WF s₀.buf s₀.disk)
    (hcreate : create s₀ val = .ok (t, s)) : t.Ok s (fun _ _ _ => none) Dict.empty := by
  have hargs : val.length ≤ 32 ∧ ¬ (val.length = 0 ∨ val ∈ s₀.disk) := by
    unfold create at hcreate
    rcases guard_eq_ok hcreate with ⟨hle, hcreate⟩
    rcases guard_eq_ok hcreate with ⟨hmiss, -⟩
    exact ⟨by omega, hmiss⟩
  have hpos : 0 < val.length := Nat.pos_of_ne_zero fun hzero => hargs.2 (.inl hzero)
  rcases create_spec (holds_nothing hwf) hpos hargs.1 fun hmem => hargs.2 (.inr hmem) with
    ⟨⟨t', s'⟩, hcreate', hok, -⟩
  rw [hcreate] at hcreate'
  cases hcreate'
  exact hok

/-! ## The answers -/

/-- The answers of the table are those of the map. -/
structure Agrees (t : Table) (s : Store) (m : Dict Int Entry) : Prop where
  retrieve : ∀ id, BloomFilter.Hashable id → ∃ s' r, t.retrieve s id = .ok (s', r) ∧
    r.map Record.view = (m.get? id).map fun e => (id, e)
  retrieveAll : ∃ s' l, t.retrieveAll s = .ok (s', l) ∧ (l.map Record.view).Perm m.entries
  countByIntensity : ∀ i, t.countByIntensity i = m.entries.countP fun e => e.2.intensity = i

/-- `retrieve_by_country` answers with the records of the country, each once. -/
def CountryAgrees (t : Table) (s : Store) (m : Dict Int Entry) (garbage : Chars8) (c : Str) :
    Prop :=
  ∃ s' l, t.retrieveByCountry s garbage c = .ok (s', l) ∧
    (l.map Record.view).Perm (m.entries.filter fun e => e.2.countryOfOrigin = c)

theorem Ok.agrees (h : t.Ok s F m) : Agrees t s m where
  retrieve := by
    intro id hid
    rcases retrieve_spec h hid with ⟨⟨s', r⟩, hcall, hview, -⟩
    exact ⟨s', r, hcall, hview⟩
  retrieveAll := by
    rcases retrieveAll_spec h with ⟨⟨s', l⟩, hcall, hl, -⟩
    refine ⟨s', l, hcall, ?_⟩
    dsimp only at hl
    rw [hl, view_allRecords]
    exact h.stored.contents
  countByIntensity := by
    intro i
    rw [countByIntensity_eq]
    exact h.counts i

/-- The countries of the records have at most eight characters. -/
theorem Ok.country_le (h : t.Ok s F m) {e : Int × Entry} (he : e ∈ m.entries) :
    e.2.countryOfOrigin.length ≤ 8 := by
  rcases mem_filterMap.mp (h.stored.contents.mem_iff.mpr he) with ⟨⟨p, c⟩, hslot, hentry⟩
  rcases Cells.row_of_entry hentry with ⟨-, name, -, heq⟩
  rcases mem_slotsOf.mp hslot with ⟨⟨o, n⟩, -, -, rfl⟩
  rw [heq]
  exact Chars8.length_text_le _

theorem Ok.countryAgrees_iff (h : t.Ok s F m) (garbage : Chars8) (c : Str) :
    CountryAgrees t s m garbage c ↔ c.length = 8 ∨ garbage.bytes[c.length]? = some 0 ∨
      ∀ e ∈ m.entries, e.2.countryOfOrigin ≠ c := by
  rcases retrieveByCountry_spec h garbage c with ⟨⟨s', l⟩, hcall, hview, -⟩
  have hanswer : CountryAgrees t s m garbage c ↔
      (l.map Record.view).Perm (m.entries.filter fun e => e.2.countryOfOrigin = c) := by
    constructor
    · rintro ⟨s'', l', hcall', hperm⟩
      rw [hcall] at hcall'
      cases hcall'
      exact hperm
    · intro hperm
      exact ⟨s', l, hcall, hperm⟩
  rw [hanswer]
  by_cases hnone : ∀ e ∈ m.entries, e.2.countryOfOrigin ≠ c
  · have hnil : m.entries.filter (fun e => e.2.countryOfOrigin = c) = [] := by
      refine filter_eq_nil_iff.mpr ?_
      intro e he hc
      exact hnone e he (of_decide_eq_true hc)
    rw [hnil] at hview ⊢
    exact iff_of_true hview (.inr (.inr hnone))
  · push Not at hnone
    rcases hnone with ⟨e, he, hc⟩
    have hle : c.length ≤ 8 := hc ▸ h.country_le he
    have hmem : e ∈ m.entries.filter fun e => e.2.countryOfOrigin = c :=
      mem_filter.mpr ⟨he, decide_eq_true hc⟩
    -- every record has the country as it was written
    have htext : (l.map Record.view).Perm (m.entries.filter fun e => e.2.countryOfOrigin = c) ↔
        (strncpyOver garbage c).text = c := by
      constructor
      · intro hperm
        have hviewed := (hview.symm.trans hperm).mem_iff.mp (mem_map_of_mem hmem)
        exact of_decide_eq_true (mem_filter.mp hviewed).2
      · intro heq
        refine hview.trans (List.Perm.of_eq ?_)
        rw [heq]
        refine (map_congr_left ?_).trans (map_id _)
        rintro ⟨id, x⟩ hx
        have hcountry : x.countryOfOrigin = c := of_decide_eq_true (mem_filter.mp hx).2
        rw [← hcountry]
        rfl
    rw [htext, text_strncpyOver hle]
    refine or_congr_right (or_iff_left ?_).symm
    intro hall
    exact hall e he hc

end Table

/-- Calls on a new table give the codes that the same calls on a finite map give,
and then the table answers as the map, but for `retrieve_by_country`: it returns
the records of a country exactly when its name has eight characters, or happens to
be written before a NUL, or there are none. -/
theorem table_refines_map {s₀ s : Store} {name : Str} {t : Table}
    (hwf : ColumnBuffer.WF s₀.buf s₀.disk) (hcreate : Table.create s₀ name = .ok (t, s))
    (calls : List TableCall) (hcalls : ∀ call ∈ calls, call.Hashable) :
    ∃ t' s', TableCall.runTable t s calls =
        .ok (t', s', (TableCall.runMap Dict.empty calls).2) ∧
      Table.Agrees t' s' (TableCall.runMap Dict.empty calls).1 ∧
      ∀ garbage c, Table.CountryAgrees t' s' (TableCall.runMap Dict.empty calls).1 garbage c ↔
        c.length = 8 ∨ garbage.bytes[c.length]? = some 0 ∨
          ∀ e ∈ (TableCall.runMap Dict.empty calls).1.entries, e.2.countryOfOrigin ≠ c := by
  have hnew := Table.ok_of_create hwf hcreate
  rcases hnew.run _ hcalls with ⟨⟨t', s', codes⟩, hrun, hcodes, F, hok, -⟩
  dsimp only at hcodes hok
  rw [hcodes] at hrun
  exact ⟨t', s', hrun, hok.agrees, hok.countryAgrees_iff⟩

/-- No tables and nothing in the column buffer. -/
def emptyStore : Store := ⟨ColumnBuffer.init, ∅⟩

/-- Two records of one country, one of which is changed and one removed, and one
record of another. -/
def usCalls : List TableCall :=
  [.insert 1 (Str.ofString "a") 3 (Str.ofString "US"),
    .insert 2 (Str.ofString "b") 3 (Str.ofString "US"),
    .insert 2 (Str.ofString "c") 4 (Str.ofString "BR"), .update 1 5, .remove 2,
    .insert 2 (Str.ofString "c") 4 (Str.ofString "BR")]

theorem exists_create : ∃ t s, Table.create emptyStore (Str.ofString "A") = .ok (t, s) := by
  have hs := Table.holds_nothing (s := emptyStore) (ColumnBuffer.init_wf _)
  have hnew : Str.ofString "A" ∉ emptyStore.disk := TreeMap.not_mem_emptyc
  rcases Table.create_spec hs (by decide) (by decide) hnew with ⟨⟨t, s⟩, hcreate, -⟩
  exact ⟨t, s, hcreate⟩

theorem table_refines_map_usCalls :
    ∃ t s t' s', Table.create emptyStore (Str.ofString "A") = .ok (t, s) ∧
      TableCall.runTable t s usCalls = .ok (t', s', [0, 0, -1, 0, 0, 0]) ∧
      Table.Agrees t' s' (TableCall.runMap Dict.empty usCalls).1 ∧
      Table.CountryAgrees t' s' (TableCall.runMap Dict.empty usCalls).1
        (strncpy8 (Str.ofString "")) (Str.ofString "US") := by
  rcases exists_create with ⟨t, s, hcreate⟩
  rcases table_refines_map (ColumnBuffer.init_wf _) hcreate usCalls (by decide) with
    ⟨t', s', hrun, hagrees, hcountry⟩
  have hcodes : (TableCall.runMap Dict.empty usCalls).2 = [0, 0, -1, 0, 0, 0] := by decide
  rw [hcodes] at hrun
  exact ⟨t, s, t', s', hcreate, hrun, hagrees, (hcountry _ _).mpr (.inr (.inl (by decide)))⟩

/-- A record of the country `US` is returned as one of the country `USXXXXXX`. -/
theorem not_table_refines_map :
    ∃ t s t' s', Table.create emptyStore (Str.ofString "A") = .ok (t, s) ∧
      TableCall.runTable t s usCalls = .ok (t', s', [0, 0, -1, 0, 0, 0]) ∧
      ¬ Table.CountryAgrees t' s' (TableCall.runMap Dict.empty usCalls).1
        (strncpy8 (Str.ofString "XXXXXXXX")) (Str.ofString "US") := by
  rcases exists_create with ⟨t, s, hcreate⟩
  have hnew := Table.ok_of_create (ColumnBuffer.init_wf _) hcreate
  rcases hnew.run usCalls (by decide) with ⟨⟨t', s', codes⟩, hrun, hcodes, F, hok, -⟩
  have hmap : (TableCall.runMap Dict.empty usCalls).2 = [0, 0, -1, 0, 0, 0] := by decide
  dsimp only at hcodes hok
  rw [hcodes, hmap] at hrun
  refine ⟨t, s, t', s', hcreate, hrun, ?_⟩
  rw [hok.countryAgrees_iff]
  decide

end PittCs.Rcdb
