import PittCs.Rcdb.TableMap

/-!
# What a table answers

The answers of a table that holds a map: `retrieve`, `retrieve_all`,
`retrieve_by_country` and `count_by_intensity`. A record of `retrieve_by_country`
has the country of its block written over what the memory held before.
-/

namespace PittCs.Rcdb

open Std PittCs.Lib BlockAllocator List Option

/-! ## Texts of eight characters -/

theorem Chars8.length_text_le (c : Chars8) : c.text.length ≤ 8 := by
  have hle := (takeWhile_sublist (fun b : UInt8 => decide (b ≠ 0)) (l := c.bytes)).length_le
  rw [c.length_eq] at hle
  exact hle

/-- A text of at most eight characters that is padded is read back. -/
theorem text_strncpy8_text (c : Chars8) : (strncpy8 c.text).text = c.text :=
  text_strncpy8 c.length_text_le

/-- A text that is not padded is read back if it is full or the memory after it
holds a NUL. -/
theorem text_strncpyOver {garbage : Chars8} {c : Str} (hc : c.length ≤ 8) :
    (strncpyOver garbage c).text = c ↔ c.length = 8 ∨ garbage.bytes[c.length]? = some 0 := by
  have hlen := garbage.length_eq
  have hbytes : (strncpyOver garbage c).bytes = c.chars ++ garbage.bytes.drop c.length := by
    refine take_of_length_le ?_
    rw [length_append, length_drop, hlen]
    have hchars : c.chars.length = c.length := rfl
    omega
  have hpos : ∀ b ∈ c.chars, decide (b ≠ 0) = true := by
    intro b hb
    simpa using fun h0 : b = 0 => c.no_nul (h0 ▸ hb)
  have htext : (strncpyOver garbage c).text.chars =
      c.chars ++ (garbage.bytes.drop c.length).takeWhile fun b => decide (b ≠ 0) := by
    show takeWhile _ (strncpyOver garbage c).bytes = _
    rw [hbytes, takeWhile_append_of_pos hpos]
  have hiff : (strncpyOver garbage c).text = c ↔
      (garbage.bytes.drop c.length).takeWhile (fun b => decide (b ≠ 0)) = [] := by
    constructor
    · intro heq
      rw [heq] at htext
      exact append_right_eq_self.mp htext.symm
    · intro hnil
      refine Str.ext ?_
      rw [htext, hnil, append_nil]
  rw [hiff]
  cases hdrop : garbage.bytes.drop c.length with
  | nil =>
    have hge := drop_eq_nil_iff.mp hdrop
    rw [hlen] at hge
    exact iff_of_true rfl (.inl (by omega))
  | cons b rest =>
    have hget : garbage.bytes[c.length]? = some b := by
      rw [← head?_drop, hdrop]
      rfl
    have hlt : c.length ≠ 8 := by
      intro heq
      rw [heq, drop_of_length_le hlen.le] at hdrop
      cases hdrop
    rw [hget]
    by_cases hb : b = 0
    · simp [hb]
    · simp [hb, hlt]

namespace Table

variable {t : Table} {s : Store} {F : Cells} {m : Dict Int Entry} {id : Int}

/-! ## Reading records -/

/-- The record of a slot, with the country it is given. -/
def recordAt (F : Cells) (table : Str) (country : Chars8) (p : Nat) : Option Record :=
  (F.row table p).bind fun r =>
    if r.coffeeID = -1 then none else some ⟨r.coffeeID, r.coffeeName, r.intensity, country⟩

theorem view_recordAt (F : Cells) (table : Str) (country : Chars8) (p : Nat) :
    (recordAt F table country p).map Record.view = F.entry table (p, country.text) := by
  unfold recordAt Cells.entry
  cases F.row table p with
  | none => rfl
  | some r =>
    dsimp only [bind_some]
    split <;> rfl

theorem Ok.of_read (h : t.Ok s F m) {s' : Store} (hs' : s'.Holds F)
    (hshape : Disk.SameShape s.disk s'.disk) : t.Ok s' F m :=
  { h with
    holds := hs'
    fits := h.fits.of_sameShape hshape }

theorem readRecord_spec (h : t.Ok s F m) {p : Nat} {r : Row} (hr : F.row t.name p = some r) :
    Returns (t.readRecord s p) fun x => x.2 = (r.coffeeID, r.coffeeName, r.intensity) ∧
      t.Ok x.1 F m ∧ Disk.SameShape s.disk x.1.disk := by
  rcases Cells.row_eq_some.mp hr with ⟨hid, hname, hintensity⟩
  rw [← h.name_eq] at hid hname hintensity
  unfold readRecord
  refine (FileManager.getItem_spec h.holds h.fits hid).bind ?_
  rintro ⟨s₁, _⟩ ⟨rfl, hs₁, hshape₁⟩
  have h₁ := h.of_read hs₁ hshape₁
  refine (FileManager.getItem_spec h₁.holds h₁.fits hname).bind ?_
  rintro ⟨s₂, _⟩ ⟨rfl, hs₂, hshape₂⟩
  have h₂ := h₁.of_read hs₂ hshape₂
  refine (FileManager.getItem_spec h₂.holds h₂.fits hintensity).bind ?_
  rintro ⟨s₃, _⟩ ⟨rfl, hs₃, hshape₃⟩
  exact returns_ok ⟨rfl, h₂.of_read hs₃ hshape₃, (hshape₁.trans hshape₂).trans hshape₃⟩

/-- The records of a block, in the order of its slots. -/
theorem readBlock_spec (h : t.Ok s F m) {o k : Nat} (country : Chars8)
    (hrows : ∀ i, i < k → ∃ r, F.row t.name (o + i) = some r) :
    Returns (t.readBlock s o k country) fun x =>
      x.2 = ((List.range k).map (o + ·)).filterMap (recordAt F t.name country) ∧
      t.Ok x.1 F m ∧ Disk.SameShape s.disk x.1.disk := by
  unfold readBlock
  refine Returns.foldlM (fun done (x : Store × List Record) =>
    x.2 = done.filterMap (recordAt F t.name country) ∧ t.Ok x.1 F m ∧
      Disk.SameShape s.disk x.1.disk) ⟨rfl, h, .refl _⟩ ?_
  rintro pre p post hl ⟨s₁, found⟩ ⟨hfound, h₁, hshape₁⟩
  have hp : p ∈ (List.range k).map (o + ·) := by
    rw [hl]
    exact mem_append_right _ mem_cons_self
  rcases mem_map.mp hp with ⟨i, hi, rfl⟩
  rcases hrows i (mem_range.mp hi) with ⟨r, hr⟩
  refine (readRecord_spec h₁ hr).bind ?_
  rintro ⟨s₂, _⟩ ⟨rfl, h₂, hshape₂⟩
  have hat : recordAt F t.name country (o + i) = if r.coffeeID = -1 then none
      else some ⟨r.coffeeID, r.coffeeName, r.intensity, country⟩ := by
    unfold recordAt
    rw [hr]
    rfl
  dsimp only at hfound ⊢
  rw [hfound, filterMap_append]
  split
  · rename_i hdeleted
    rw [if_pos hdeleted] at hat
    refine returns_ok ⟨?_, h₂, hshape₁.trans hshape₂⟩
    rw [filterMap_cons_none hat, filterMap_nil, append_nil]
  · rename_i hlive
    rw [if_neg hlive] at hat
    refine returns_ok ⟨?_, h₂, hshape₁.trans hshape₂⟩
    rw [filterMap_cons_some hat, filterMap_nil]

/-- The slots of a used block have rows. -/
theorem Ok.block_rows (h : t.Ok s F m) {o : Nat} {n : Node} (hused : (o, n) ∈ t.b.used) (i : Nat)
    (hi : i < n.key.recordCount.toNat) : ∃ r, F.row t.name (o + i) = some r := by
  refine h.stored.rows (o + i, n.key.val.text) (mem_slotsOf.mpr ⟨(o, n), hused, ?_, rfl⟩)
  exact mem_map.mpr ⟨i, mem_range.mpr hi, rfl⟩

/-! ## `retrieve` -/

theorem getBlockFromOffset_eq {nodes : List Node} {running o p : Nat} {n : Node}
    (hmem : (o, n) ∈ layout Node.size running nodes) (hle : o ≤ p) (hlt : p < o + n.size) :
    getBlockFromOffset p nodes running = some n.key := by
  induction nodes generalizing running with
  | nil => cases hmem
  | cons x rest ih =>
    unfold getBlockFromOffset
    rw [layout_cons] at hmem
    rcases mem_cons.mp hmem with heq | hrest
    · cases heq
      rw [if_pos ⟨hle, hlt⟩]
    · -- the block is behind this one
      have hbehind := le_of_mem_layout Node.size hrest
      rw [if_neg (by omega)]
      exact ih hrest

/-- The country of the block of a slot. -/
theorem Ok.getBlock (h : t.Ok s F m) {p : Nat} {c : Str} (hslot : (p, c) ∈ slotsOf t.b.used) :
    ∃ block, getBlockFromOffset p t.b.nodes 0 = some block ∧ block.val.text = c := by
  rcases mem_slotsOf.mp hslot with ⟨⟨o, n⟩, hused, hp, hc⟩
  rcases mem_blockSlots.mp hp with ⟨hle, hlt⟩
  have hcount := (usedKey_of_mem h.inv.ordered hused).1.2.2
  have hsize : n.size = n.key.blockSize := rfl
  dsimp only at hle hlt
  refine ⟨n.key, getBlockFromOffset_eq (mem_usedFrom.mp hused).1 hle ?_, hc⟩
  omega

theorem retrieve_spec (h : t.Ok s F m) (hid : BloomFilter.Hashable id) :
    Returns (t.retrieve s id) fun x =>
      x.2.map Record.view = (m.get? id).map (fun e => (id, e)) ∧ t.Ok x.1 F m ∧
        Disk.SameShape s.disk x.1.disk := by
  unfold retrieve
  cases hget : m.get? id with
  | none =>
    rw [BloomFilter.contains_eq h.full hid, h.not_found hid.1 hget]
    simp only [bind, Except.bind]
    split
    · exact returns_ok ⟨rfl, h, .refl _⟩
    · exact returns_ok ⟨rfl, h, .refl _⟩
  | some e =>
    rcases h.find hget with ⟨p, c, r, hindex, hslot, hr, rfl, -, rfl⟩
    rcases h.getBlock hslot with ⟨block, hblock, rfl⟩
    rw [(h.bloom _ _ hget).2, hindex]
    refine (readRecord_spec h hr).bind ?_
    rintro ⟨s₁, _⟩ ⟨rfl, h₁, hshape₁⟩
    dsimp only
    rw [hblock]
    refine returns_ok ⟨?_, h₁, hshape₁⟩
    simp only [map_some, Record.view, text_strncpy8_text]

/-! ## `retrieve_all` -/

/-- The answer of `retrieve_all`, block by block. -/
def allRecords (F : Cells) (table : Str) (used : List (Nat × Node)) : List Record :=
  used.flatMap fun e => (blockSlots e).filterMap (recordAt F table (strncpy8 e.2.key.val.text))

theorem view_allRecords (F : Cells) (table : Str) (used : List (Nat × Node)) :
    (allRecords F table used).map Record.view = (slotsOf used).filterMap (F.entry table) := by
  unfold allRecords slotsOf
  rw [map_flatMap, filterMap_flatMap]
  congr 1
  funext e
  rw [map_filterMap, filterMap_map]
  congr 1
  funext p
  dsimp only [Function.comp]
  rw [view_recordAt, text_strncpy8_text]

theorem retrieveAll_spec (h : t.Ok s F m) :
    Returns (t.retrieveAll s) fun x => x.2 = allRecords F t.name t.b.used ∧ t.Ok x.1 F m ∧
      Disk.SameShape s.disk x.1.disk := by
  unfold retrieveAll
  refine Returns.bind (P := fun x : Store × List Record × Nat =>
    x.2.1 = allRecords F t.name t.b.used ∧ t.Ok x.1 F m ∧ Disk.SameShape s.disk x.1.disk) ?_ ?_
  · refine (Returns.foldlM (fun done (x : Store × List Record × Nat) =>
      x.2.1 = allRecords F t.name (usedFrom 0 done) ∧ x.2.2 = total Node.size done ∧ t.Ok x.1 F m ∧
        Disk.SameShape s.disk x.1.disk) ⟨rfl, rfl, h, .refl _⟩ ?_).mono ?_
    · rintro pre n post hnodes ⟨s₁, found, o⟩ ⟨hfound, ho, h₁, hshape₁⟩
      dsimp only at hfound ho h₁ hshape₁
      have htotal : o + n.size = total Node.size (pre ++ [n]) := by
        rw [total_append, total_cons, total_nil, ho]
        omega
      unfold retrieveBlock
      dsimp only
      by_cases hfree : isFree n.key = true
      · rw [if_pos hfree]
        refine returns_ok ⟨?_, htotal, h₁, hshape₁⟩
        dsimp only
        rw [hfound, usedFrom_append, usedFrom_cons_free hfree, usedFrom_nil, append_nil]
      · rw [if_neg hfree]
        have hused : isFree n.key = false := by simpa using hfree
        have hmem : (o, n) ∈ t.b.used := mem_used_iff.mpr ⟨⟨pre, post, hnodes, ho⟩, hused⟩
        refine (readBlock_spec h₁ _ (h₁.block_rows hmem)).bind ?_
        rintro ⟨s₂, block⟩ ⟨hblock, h₂, hshape₂⟩
        refine returns_ok ⟨?_, htotal, h₂, hshape₁.trans hshape₂⟩
        dsimp only at hblock ⊢
        rw [hfound, hblock, usedFrom_append, usedFrom_cons_used hused, usedFrom_nil, Nat.zero_add,
          ← ho]
        unfold allRecords
        rw [flatMap_append, flatMap_singleton]
        rfl
    · rintro x ⟨hfound, -, h₁, hshape₁⟩
      exact ⟨hfound, h₁, hshape₁⟩
  · rintro ⟨s₁, found, o⟩ hx
    exact returns_ok hx

/-! ## `retrieve_by_country` -/

/-- The blocks of other countries have other names. -/
theorem Ok.named_unique (h : t.Ok s F m) {o : Nat} {n : Node} {rest : List (Nat × Node)} {c : Str}
    (hperm : t.b.used.Perm ((o, n) :: rest)) (hname : Named n.key c) :
    ∀ e ∈ rest, e.2.key.val.text ≠ c := by
  rintro ⟨o', n'⟩ he htext
  have hmem : (o', n') ∈ t.b.used := hperm.mem_iff.mpr (mem_cons_of_mem _ he)
  rcases (usedKey_of_mem h.inv.ordered hmem).1.1 with ⟨c', hname'⟩
  have hcc : c' = c := hname'.text.symm.trans htext
  subst hcc
  have hthis := h.inv.mapOf.eq_some (hperm.mem_iff.mpr mem_cons_self) hname
  have hother := h.inv.mapOf.eq_some hmem hname'
  rw [hthis] at hother
  injection hother with hother
  injection hother with _ haddr
  exact h.inv.ordered.ne_addr hperm _ he haddr.symm

/-- The records of one country are those of its block. -/
theorem Ok.country_entries (h : t.Ok s F m) {o : Nat} {n : Node} {c : Str}
    (hused : (o, n) ∈ t.b.used) (hname : Named n.key c) :
    ((blockSlots (o, n)).filterMap fun p => F.entry t.name (p, c)).Perm
      (m.entries.filter fun e => e.2.countryOfOrigin = c) := by
  have hperm := perm_cons_erase hused
  have hall : ((slotsOf ((o, n) :: t.b.used.erase (o, n))).filterMap (F.entry t.name)).Perm
      m.entries := ((slotsOf_perm hperm).symm.filterMap _).trans h.stored.contents
  refine List.Perm.trans ?_ (hall.filter _)
  have hsplit : slotsOf ((o, n) :: t.b.used.erase (o, n)) =
      (blockSlots (o, n)).map (fun p => (p, n.key.val.text)) ++ slotsOf (t.b.used.erase (o, n)) :=
    flatMap_cons
  rw [hsplit, hname.text, filterMap_append, filter_append, filterMap_map]
  have hblock : ((blockSlots (o, n)).filterMap (F.entry t.name ∘ fun p => (p, c))).filter
      (fun e => e.2.countryOfOrigin = c) =
      (blockSlots (o, n)).filterMap (F.entry t.name ∘ fun p => (p, c)) := by
    refine filter_eq_self.mpr ?_
    rintro ⟨id, e⟩ he
    rcases mem_filterMap.mp he with ⟨p, -, hentry⟩
    rcases Cells.row_of_entry hentry with ⟨-, name, -, heq⟩
    rw [heq]
    exact decide_eq_true rfl
  have hrest : ((slotsOf (t.b.used.erase (o, n))).filterMap (F.entry t.name)).filter
      (fun e => e.2.countryOfOrigin = c) = [] := by
    refine filter_eq_nil_iff.mpr ?_
    rintro ⟨id, e⟩ he hc
    rcases mem_filterMap.mp he with ⟨⟨p, c'⟩, hslot, hentry⟩
    rcases Cells.row_of_entry hentry with ⟨-, name, -, heq⟩
    rcases mem_slotsOf.mp hslot with ⟨x, hx, -, htext⟩
    have hcountry : c' = c := by
      have hdec := of_decide_eq_true hc
      rw [heq] at hdec
      exact hdec
    exact h.named_unique hperm hname x hx (htext.trans hcountry)
  rw [hblock, hrest, append_nil]
  exact List.Perm.refl _

/-- Without a block of this name there is no record of this country. -/
theorem Ok.country_none (h : t.Ok s F m) {c : Str} (hnone : t.b.blockMap[c]? = none) :
    ∀ e ∈ m.entries, e.2.countryOfOrigin ≠ c := by
  rintro ⟨id, e⟩ he hc
  rcases mem_filterMap.mp (h.stored.contents.mem_iff.mpr he) with ⟨⟨p, c'⟩, hslot, hentry⟩
  rcases Cells.row_of_entry hentry with ⟨-, name, -, heq⟩
  rcases mem_slotsOf.mp hslot with ⟨⟨o, n⟩, hused, -, htext⟩
  rcases (usedKey_of_mem h.inv.ordered hused).1.1 with ⟨c'', hname⟩
  have hcountry : c'' = c := by
    rw [← hname.text, htext]
    rw [heq] at hc
    exact hc
  subst hcountry
  have hsome := h.inv.mapOf.eq_some hused hname
  rw [hnone] at hsome
  cases hsome

theorem retrieveByCountry_spec (h : t.Ok s F m) (garbage : Chars8) (c : Str) :
    Returns (t.retrieveByCountry s garbage c) fun x =>
      (x.2.map Record.view).Perm ((m.entries.filter fun e => e.2.countryOfOrigin = c).map fun e =>
        (e.1, { e.2 with countryOfOrigin := (strncpyOver garbage c).text })) ∧
      t.Ok x.1 F m ∧ Disk.SameShape s.disk x.1.disk := by
  unfold retrieveByCountry
  cases hmap : t.b.blockMap[c]? with
  | none =>
    have hnil : m.entries.filter (fun e => e.2.countryOfOrigin = c) = [] := by
      refine filter_eq_nil_iff.mpr ?_
      intro e he hc
      exact h.country_none hmap e he (of_decide_eq_true hc)
    dsimp only
    rw [hnil]
    exact returns_ok ⟨List.Perm.refl _, h, .refl _⟩
  | some info =>
    rcases (h.inv.mapOf c info).mp hmap with ⟨n, hused, haddr, hname⟩
    rcases mem_used_iff.mp hused with ⟨⟨pre, post, hs, -⟩, -⟩
    have hnode := node?_split hs h.inv.ordered.tiled.nodup
    have hle := hname.2.1
    dsimp only
    rw [if_neg (by omega), ← haddr, hnode]
    refine (readBlock_spec h _ (h.block_rows hused)).mono ?_
    rintro ⟨s₁, found⟩ ⟨hfound, h₁, hshape₁⟩
    refine ⟨?_, h₁, hshape₁⟩
    dsimp only at hfound ⊢
    refine List.Perm.trans ?_ ((h.country_entries hused hname).map _)
    refine List.Perm.of_eq ?_
    rw [hfound, map_filterMap, map_filterMap]
    refine filterMap_congr ?_
    intro p _
    rw [view_recordAt]
    unfold Cells.entry
    cases F.row t.name p with
    | none => rfl
    | some r =>
      dsimp only [bind_some]
      split <;> rfl

end Table

end PittCs.Rcdb
