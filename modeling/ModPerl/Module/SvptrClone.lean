import ModPerl.Module.SvptrTable

/-!
# Cloning and destroying the table of config objects

`modperl_svptr_table_clone` copies the table of the parent interpreter for a new
one, with a duplicate of each SV; `modperl_svptr_table_destroy` drops the
references of a table that is no longer needed.  Both go through the lists from
the first to the one before the last, although `tbl_max` is the index of the
last list: they are right about tables in which that list is empty.
`modperl_svptr_table_clear`, which frees the entries, goes through all lists.
-/

namespace ModPerl

open SinglyLinked

namespace PtrTbl

/-- `Newxz` of an entry, to which the slot is made to point, and the lines that fill it. -/
def append (t : PtrTbl) (slot : SinglyLinked.Slot ℕ ℕ) (ent : PtrTblEnt) : PtrTbl :=
  { t with
    ent := Function.update t.ent t.allocated ent
    link := write (write t.link (.next t.allocated) none) slot (some t.allocated)
    allocated := t.allocated + 1 }

/-- The inner loop of `modperl_svptr_table_clone`, from an entry of the source on.  The slot
is the element of the array before the first entry, and the `next` field of the previous
copy then. -/
def cloneBucket (source : PtrTbl) (dup : SvPtr → SvPtr) :
    ℕ → Option ℕ → SinglyLinked.Slot ℕ ℕ → PtrTbl → Option PtrTbl
  | 0, srcEnt, _, t => if srcEnt.isNone then some t else none
  | n + 1, srcEnt, slot, t =>
      match srcEnt with
      | none => some t
      | some a =>
          cloneBucket source dup n (source.link (.next a)) (.next t.allocated)
            (t.append slot ⟨(source.ent a).oldval, dup (source.ent a).newval⟩)

/-- `modperl_svptr_table_clone`; `dup` is `my_sv_dup`. -/
def clone (source : PtrTbl) (dup : SvPtr → SvPtr) : Option PtrTbl :=
  (List.range source.tblMax).foldlM (fun t i =>
    if (source.link (.head i)).isNone then some t
    else
      source.cloneBucket dup source.allocated (source.link (.head i)) (.head i) t)
    { tblMax := source.tblMax
      tblItems := source.tblItems
      arySize := source.tblMax + 1
      link := fun _ => none
      ent := fun _ => ⟨0, none⟩
      allocated := 0 }

/-- The inner loop of `modperl_svptr_table_destroy`, and the SVs that lose a reference. -/
def destroyBucket : ℕ → Option ℕ → PtrTbl × List ℕ → Option (PtrTbl × List ℕ)
  | 0, ent, s => if ent.isNone then some s else none
  | n + 1, ent, (t, released) =>
      match ent with
      | none => some (t, released)
      | some a =>
          match (t.ent a).newval with
          | none => destroyBucket n (t.link (.next a)) (t, released)
          | some sv =>
              let t' :=
                { t with ent := Function.update t.ent a { t.ent a with newval := none } }
              destroyBucket n (t'.link (.next a)) (t', released ++ [sv])

/-- The loop of `modperl_svptr_table_clear`, and the entries that are freed. -/
def clearLoop (t : PtrTbl) : ℕ → Option ℕ → ℕ → List ℕ → Option (List ℕ)
  | 0, _, _, _ => none
  | n + 1, entry, riter, freed =>
      let freed := freed ++ entry.toList
      match entry.bind fun a => t.link (.next a) with
      | some a => clearLoop t n (some a) riter freed
      | none =>
          if riter + 1 > t.tblMax then some freed
          else clearLoop t n (t.link (.head (riter + 1))) (riter + 1) freed

/-- `modperl_svptr_table_clear` -/
def clear (t : PtrTbl) : Option (List ℕ) :=
  if t.tblItems = 0 then some []
  else t.clearLoop (t.tblItems + t.arySize) (t.link (.head 0)) 0 []

/-- `modperl_svptr_table_destroy`: the SVs that lose a reference, and the entries that
`modperl_svptr_table_free` frees. -/
def destroy (t : PtrTbl) : Option (List ℕ × List ℕ) := do
  let (t', released) ← (List.range t.tblMax).foldlM (fun s i =>
    if (s.1.link (.head i)).isNone then some s
    else destroyBucket t.allocated (s.1.link (.head i)) s) (t, [])
  let freed ← t'.clear
  return (released, freed)

/-! ## Clone -/

section Append

variable {t : PtrTbl} {slot : SinglyLinked.Slot ℕ ℕ} {e : PtrTblEnt}

theorem append_ent_self : (t.append slot e).ent t.allocated = e := Function.update_self ..

theorem append_ent_of_ne {a : ℕ} (ha : a ≠ t.allocated) : (t.append slot e).ent a = t.ent a :=
  Function.update_of_ne ha ..

theorem append_link_slot : (t.append slot e).link slot = some t.allocated := write_self

theorem append_link_next (hslot : slot ≠ .next t.allocated) :
    (t.append slot e).link (.next t.allocated) = none := by
  simp only [append, write_of_ne hslot.symm, write_self]

theorem append_link_of_ne {u : SinglyLinked.Slot ℕ ℕ} (hu : u ≠ slot)
    (hu' : u ≠ .next t.allocated) :
    (t.append slot e).link u = t.link u :=
  (write_of_ne hu).trans (write_of_ne hu')

end Append

/-- What the source says of a key, for an entry of the clone. -/
def dupEnt (dup : SvPtr → SvPtr) (e : PtrTblEnt) : PtrTblEnt := ⟨e.oldval, dup e.newval⟩

variable {source t : PtrTbl} {dup : SvPtr → SvPtr} {xs : List ℕ}

variable (dup) in
/-- The rest of a list is copied behind a slot: into new entries, and nothing else is
changed. -/
theorem cloneBucket_eq {p : Option ℕ} {slot : SinglyLinked.Slot ℕ ℕ} {n : ℕ}
    (hchain : Chain source.link p xs) (hn : xs.length ≤ n) (hnull : t.link slot = none)
    (hslot : ∀ a, t.allocated ≤ a → slot ≠ .next a) :
    ∃ t' ys, source.cloneBucket dup n p slot t = some t' ∧
      Chain t'.link (t'.link slot) ys ∧
      ys.map t'.ent = xs.map (fun a => dupEnt dup (source.ent a)) ∧
      (∀ b ∈ ys, t.allocated ≤ b ∧ b < t'.allocated) ∧ t.allocated ≤ t'.allocated ∧
      (∀ a < t.allocated, t'.ent a = t.ent a) ∧
      (∀ u, u ≠ slot → (∀ a, t.allocated ≤ a → u ≠ .next a) → t'.link u = t.link u) ∧
      t'.tblMax = t.tblMax ∧ t'.tblItems = t.tblItems ∧ t'.arySize = t.arySize := by
  -- the copy of an entry is linked behind the slot, and its own next field is the next slot
  induction xs generalizing p slot n t with
  | nil =>
      have hp : p = none := hchain
      subst hp
      refine ⟨t, [], ?_, hnull, rfl, by simp, le_rfl, fun _ _ => rfl, fun _ _ _ => rfl, rfl, rfl,
        rfl⟩
      cases n <;> rfl
  | cons a xs ih =>
      obtain ⟨n, rfl, hn'⟩ := exists_succ hn
      obtain ⟨rfl, hrest⟩ := hchain
      have hne : slot ≠ .next t.allocated := hslot _ le_rfl
      obtain ⟨t', ys, hres, hys, hmap, hnew, hle, hent, hframe, hmax, hitems, hsize⟩ :=
        ih hrest hn' (append_link_next (e := dupEnt dup (source.ent a)) hne)
          (fun b hb heq => absurd (SinglyLinked.Slot.next.inj heq) (Nat.ne_of_lt hb))
      have hslot' : t'.link slot = some t.allocated := by
        rw [hframe slot hne fun b hb => hslot b (Nat.le_of_succ_le hb)]
        exact append_link_slot
      refine ⟨t', t.allocated :: ys, hres, ⟨hslot', hys⟩, ?_, ?_, Nat.le_of_succ_le hle, ?_, ?_,
        hmax, hitems, hsize⟩
      · rw [List.map_cons, List.map_cons, hmap, hent _ (Nat.lt_succ_self _), append_ent_self]
      · intro b hb
        rcases List.mem_cons.mp hb with rfl | hb
        · exact ⟨le_rfl, hle⟩
        · exact ⟨Nat.le_of_succ_le (hnew b hb).1, (hnew b hb).2⟩
      · intro b hb
        rw [hent b (Nat.lt_succ_of_lt hb)]
        exact append_ent_of_ne hb.ne
      · intro u hu hunext
        rw [hframe u (hunext _ le_rfl) fun b hb => hunext b (Nat.le_of_succ_le hb)]
        exact append_link_of_ne hu (hunext _ le_rfl)

variable {chains : ℕ → List ℕ} {m : ℕ → Option SvPtr}

/-- A clone under construction: the lists below `j` are copied. -/
structure Copied (source : PtrTbl) (dup : SvPtr → SvPtr) (chains : ℕ → List ℕ) (j : ℕ)
    (t : PtrTbl) (copies : ℕ → List ℕ) : Prop where
  chain : ∀ i, Chain t.link (t.link (.head i)) (copies i)
  alloc : ∀ i, ∀ b ∈ copies i, b < t.allocated
  map : ∀ i, (copies i).map t.ent =
    if i < j then (chains i).map (fun a => dupEnt dup (source.ent a)) else []
  max : t.tblMax = source.tblMax
  items : t.tblItems = source.tblItems
  size : t.arySize = source.tblMax + 1

theorem Copied.eq_nil {j i : ℕ} {copies : ℕ → List ℕ}
    (h : Copied source dup chains j t copies) (hi : j ≤ i) : copies i = [] := by
  have hmap := h.map i
  rw [if_neg (not_lt.mpr hi)] at hmap
  exact List.map_eq_nil_iff.mp hmap

/-- One more list is copied. -/
theorem Copied.succ (hsource : source.Layout chains m) {j : ℕ} {copies : ℕ → List ℕ}
    (h : Copied source dup chains j t copies) (hj : j < source.arySize) :
    ∃ t' copies',
      (if (source.link (.head j)).isNone then some t
        else source.cloneBucket dup source.allocated (source.link (.head j)) (.head j) t) =
          some t' ∧
      Copied source dup chains (j + 1) t' copies' := by
  have hsucc : ∀ i, i ≠ j → (i < j + 1 ↔ i < j) := fun i hi => by omega
  have hnil : copies j = [] := h.eq_nil le_rfl
  by_cases hempty : (source.link (.head j)).isNone
  · have hchains : chains j = [] := by
      have hchain := hsource.chain j hj
      rw [Option.isNone_iff_eq_none.mp hempty] at hchain
      exact hchain.unique rfl
    refine ⟨t, copies, if_pos hempty, h.chain, h.alloc, fun i => ?_, h.max, h.items, h.size⟩
    by_cases hij : i = j
    · subst hij
      rw [hnil, if_pos (Nat.lt_succ_self i), hchains]
      rfl
    · rw [h.map i]
      simp only [hsucc i hij]
  · -- the new entries are not among those of the lists copied so far
    have hnull : t.link (.head j) = none := by
      have hchain := h.chain j
      rwa [hnil] at hchain
    obtain ⟨t', ys, hres, hys, hmap, hnew, hle, hent, hframe, hmax, hitems, hsize⟩ :=
      cloneBucket_eq dup (hsource.chain j hj) (hsource.chain_length hj) hnull
        (fun a _ heq => nomatch heq)
    have hold : ∀ i, i ≠ j → Chain t'.link (t'.link (.head i)) (copies i) := by
      intro i hij
      have hhead : t'.link (.head i) = t.link (.head i) :=
        hframe _ (fun heq => hij (SinglyLinked.Slot.head.inj heq)) (fun a _ heq => nomatch heq)
      rw [hhead]
      refine (h.chain i).congr fun b hb => hframe _ (fun heq => nomatch heq) ?_
      intro a ha heq
      exact absurd (SinglyLinked.Slot.next.inj heq) (lt_of_lt_of_le (h.alloc i b hb) ha).ne
    refine ⟨t', Function.update copies j ys, (if_neg hempty).trans hres, fun i => ?_, fun i => ?_,
      fun i => ?_, hmax.trans h.max, hitems.trans h.items, hsize.trans h.size⟩
    · by_cases hij : i = j
      · subst hij
        rw [Function.update_self]
        exact hys
      · rw [Function.update_of_ne hij]
        exact hold i hij
    · intro b hb
      by_cases hij : i = j
      · subst hij
        rw [Function.update_self] at hb
        exact (hnew b hb).2
      · rw [Function.update_of_ne hij] at hb
        exact lt_of_lt_of_le (h.alloc i b hb) hle
    · by_cases hij : i = j
      · subst hij
        rw [Function.update_self, if_pos (Nat.lt_succ_self i)]
        exact hmap
      · rw [Function.update_of_ne hij]
        simp only [hsucc i hij]
        rw [← h.map i]
        exact List.map_congr_left fun b hb => hent b (h.alloc i b hb)

variable (dup) in
/-- All lists but the last are copied. -/
theorem clone_eq (hsource : source.Layout chains m) :
    ∃ t copies, source.clone dup = some t ∧ Copied source dup chains source.tblMax t copies := by
  have hstart : ∃ copies, Copied source dup chains 0
      { tblMax := source.tblMax
        tblItems := source.tblItems
        arySize := source.tblMax + 1
        link := fun _ => none
        ent := fun _ => ⟨0, none⟩
        allocated := 0 } copies :=
    ⟨fun _ => [], fun _ => rfl, by simp, fun i => by rw [if_neg (Nat.not_lt_zero i)]; rfl, rfl,
      rfl, rfl⟩
  obtain ⟨t, hrun, copies, hcopied⟩ := Machine.foldlM_range
    (I := fun j t => ∃ copies, Copied source dup chains j t copies) hstart
    (n := source.tblMax) fun j hj t ⟨copies, hcopied⟩ => by
      obtain ⟨t', copies', hres, hcopied'⟩ :=
        hcopied.succ hsource (by rw [hsource.size]; exact Nat.lt_succ_of_lt hj)
      exact ⟨t', hres, copies', hcopied'⟩
  exact ⟨t, copies, hrun, hcopied⟩

/-- A clone in which no list is missing represents the map with the duplicates. -/
theorem Copied.layout (hsource : source.Layout chains m) {copies : ℕ → List ℕ}
    (h : Copied source dup chains source.tblMax t copies) (hlast : chains source.tblMax = []) :
    t.Layout copies fun k => (m k).map dup := by
  have hmap : ∀ i < source.arySize,
      (copies i).map t.ent = (chains i).map fun a => dupEnt dup (source.ent a) := by
    intro i hi
    rw [h.map i]
    by_cases hlt : i < source.tblMax
    · rw [if_pos hlt]
    · -- the loop ends before the last list, which is empty in the source too
      have heq : i = source.tblMax := by
        have hsize := hsource.size
        omega
      rw [if_neg hlt, heq, hlast]
      rfl
  have hsize : t.arySize = source.arySize := h.size.trans hsource.size.symm
  have hkeys : ∀ i < source.arySize,
      (copies i).map (fun b => (t.ent b).oldval) = (chains i).map fun a => (source.ent a).oldval :=
    fun i hi => by
      simpa [dupEnt, Function.comp_def] using congrArg (List.map PtrTblEnt.oldval) (hmap i hi)
  have horigin : ∀ i < source.arySize, ∀ b ∈ copies i,
      ∃ a ∈ chains i, t.ent b = dupEnt dup (source.ent a) := by
    intro i hi b hb
    have hmem : t.ent b ∈ (chains i).map fun a => dupEnt dup (source.ent a) :=
      hmap i hi ▸ List.mem_map_of_mem hb
    obtain ⟨a, ha, heq⟩ := List.mem_map.mp hmem
    exact ⟨a, ha, heq.symm⟩
  refine ⟨?size, ?pow, fun i _ => h.chain i, fun i _ => h.alloc i, ?bucket, ?keys, ?items,
    ?holds, ?complete⟩
  case size =>
    rw [h.size, h.max]
  case pow =>
    obtain ⟨n, hn⟩ := hsource.pow
    exact ⟨n, hsize.trans hn⟩
  case bucket =>
    intro i hi b hb
    obtain ⟨a, ha, heq⟩ := horigin i (hsize ▸ hi) b hb
    rw [heq, h.max]
    exact hsource.bucket i (hsize ▸ hi) a ha
  case keys =>
    intro i hi
    rw [hkeys i (hsize ▸ hi)]
    exact hsource.keys i (hsize ▸ hi)
  case items =>
    rw [h.items, hsource.items, hsize]
    refine Finset.sum_congr rfl fun i hi => ?_
    have hlength := congrArg List.length (hkeys i (Finset.mem_range.mp hi))
    rw [List.length_map, List.length_map] at hlength
    exact hlength.symm
  case holds =>
    intro i hi b hb
    obtain ⟨a, ha, heq⟩ := horigin i (hsize ▸ hi) b hb
    rw [heq]
    show (m (source.ent a).oldval).map dup = some (dup (source.ent a).newval)
    rw [hsource.holds i (hsize ▸ hi) a ha]
    rfl
  case complete =>
    intro k v hm
    obtain ⟨w, hw, -⟩ := Option.map_eq_some_iff.mp hm
    obtain ⟨a, ha, hkey⟩ := hsource.complete k w hw
    have hmem : k ∈ (copies (k &&& source.tblMax)).map fun b => (t.ent b).oldval := by
      rw [hkeys _ hsource.and_lt]
      exact List.mem_map.mpr ⟨a, ha, hkey⟩
    rw [h.max]
    exact List.mem_map.mp hmem

/-! ## Destroy -/

/-- The references that are dropped for a list are those on the values of its entries. -/
theorem destroyBucket_eq (released : List ℕ) {p : Option ℕ} {n : ℕ}
    (hchain : Chain t.link p xs) (hnodup : xs.Nodup) (hn : xs.length ≤ n) :
    ∃ ent', destroyBucket n p (t, released) =
        some ({ t with ent := ent' }, released ++ xs.filterMap fun a => (t.ent a).newval) ∧
      ∀ a, a ∉ xs → ent' a = t.ent a := by
  induction xs generalizing p n t released with
  | nil =>
      have hp : p = none := hchain
      subst hp
      refine ⟨t.ent, ?_, fun _ _ => rfl⟩
      rw [List.filterMap_nil, List.append_nil]
      cases n <;> rfl
  | cons a xs ih =>
      obtain ⟨n, rfl, hn'⟩ := exists_succ hn
      obtain ⟨rfl, hrest⟩ := hchain
      obtain ⟨ha, hxs⟩ := List.nodup_cons.mp hnodup
      cases hval : (t.ent a).newval with
      | none =>
          obtain ⟨ent', hres, hent⟩ := ih released hrest hxs hn'
          refine ⟨ent', ?_, fun b hb => hent b fun hmem => hb (List.mem_cons_of_mem a hmem)⟩
          rw [destroyBucket, List.filterMap_cons_none (f := fun a => (t.ent a).newval) hval]
          simp only [hval]
          exact hres
      | some sv =>
          let t' := { t with ent := Function.update t.ent a { t.ent a with newval := none } }
          have hsame : ∀ b ∈ xs, (t'.ent b).newval = (t.ent b).newval := by
            intro b hb
            have hne : b ≠ a := fun heq => ha (heq ▸ hb)
            simp only [t', Function.update_of_ne hne]
          obtain ⟨ent', hres, hent⟩ :=
            ih (t := t') (released ++ [sv]) hrest hxs hn'
          refine ⟨ent', ?_, fun b hb => ?_⟩
          · rw [destroyBucket, List.filterMap_cons_some (f := fun a => (t.ent a).newval) hval]
            simp only [hval]
            rw [hres, List.append_assoc, List.filterMap_congr hsame]
            rfl
          · obtain ⟨hba, hbxs⟩ := not_or.mp (List.mem_cons.not.mp hb)
            rw [hent b hbxs]
            exact Function.update_of_ne hba ..

/-- The entries of all lists are freed, each of them once. -/
theorem clearLoop_eq (hchain : ∀ i ≤ t.tblMax, Chain t.link (t.link (.head i)) (chains i))
    (freed : List ℕ) {n r : ℕ} {p : Option ℕ} (hr : r ≤ t.tblMax) (hp : Chain t.link p xs)
    (hn : xs.length + ((List.range' (r + 1) (t.tblMax - r)).flatMap chains).length +
      (t.tblMax - r) < n) :
    t.clearLoop n p r freed =
      some (freed ++ (xs ++ (List.range' (r + 1) (t.tblMax - r)).flatMap chains)) := by
  induction n generalizing p r xs freed with
  | zero => exact absurd hn (Nat.not_lt_zero _)
  | succ n ih =>
      -- at the end of a list the loop goes on with the next one
      have hadvance : ∀ freed', ((List.range' (r + 1) (t.tblMax - r)).flatMap chains).length +
          (t.tblMax - r) ≤ n →
          (if r + 1 > t.tblMax then some freed'
            else t.clearLoop n (t.link (.head (r + 1))) (r + 1) freed') =
            some (freed' ++ (List.range' (r + 1) (t.tblMax - r)).flatMap chains) := by
        intro freed' hn'
        by_cases hend : r + 1 > t.tblMax
        · have hzero : t.tblMax - r = 0 := by omega
          rw [if_pos hend, hzero, List.range'_zero, List.flatMap_nil, List.append_nil]
        · have hsucc : t.tblMax - r = t.tblMax - (r + 1) + 1 := by omega
          rw [hsucc, List.range'_succ, List.flatMap_cons, List.length_append] at hn'
          rw [if_neg hend, hsucc, List.range'_succ, List.flatMap_cons]
          exact ih freed' (by omega) (hchain _ (by omega)) (by omega)
      cases xs with
      | nil =>
          have hnull : p = none := hp
          subst hnull
          rw [List.length_nil] at hn
          rw [clearLoop]
          simpa using hadvance freed (by omega)
      | cons a xs =>
          obtain ⟨rfl, hrest⟩ := hp
          rw [List.length_cons] at hn
          cases xs with
          | nil =>
              have hnext : t.link (.next a) = none := hrest
              rw [clearLoop]
              simpa [hnext] using hadvance (freed ++ [a]) (by omega)
          | cons b xs =>
              have hnext : t.link (.next a) = some b := hrest.1
              have hloop := @ih (b :: xs) (freed ++ [a]) r (some b) hr ⟨rfl, hrest.2⟩ (by omega)
              rw [clearLoop]
              simpa [hnext] using hloop

/-- All entries, list by list. -/
def entries (t : PtrTbl) (chains : ℕ → List ℕ) : List ℕ := (List.range t.arySize).flatMap chains

theorem length_flatMap_range (n : ℕ) :
    ((List.range n).flatMap chains).length = ∑ i ∈ Finset.range n, (chains i).length := by
  induction n with
  | zero => rfl
  | succ n ih =>
      rw [List.range_succ, List.flatMap_append, List.length_append, ih, Finset.sum_range_succ,
        List.flatMap_singleton]

theorem length_entries (h : t.Layout chains m) : (t.entries chains).length = t.tblItems := by
  rw [entries, length_flatMap_range, h.items]

/-- `modperl_svptr_table_clear` frees every entry. -/
theorem clear_eq (hsize : t.arySize = t.tblMax + 1)
    (hchain : ∀ i < t.arySize, Chain t.link (t.link (.head i)) (chains i))
    (hlength : (t.entries chains).length = t.tblItems) : t.clear = some (t.entries chains) := by
  unfold clear
  by_cases hzero : t.tblItems = 0
  · rw [if_pos hzero]
    rw [hzero] at hlength
    rw [List.eq_nil_of_length_eq_zero hlength]
  · have hsplit : t.entries chains =
        chains 0 ++ (List.range' (0 + 1) (t.tblMax - 0)).flatMap chains := by
      rw [entries, hsize, List.range_eq_range', List.range'_succ, List.flatMap_cons, Nat.sub_zero]
    have hlists : ∀ i ≤ t.tblMax, Chain t.link (t.link (.head i)) (chains i) := fun i hi =>
      hchain i (by omega)
    have hloop := clearLoop_eq hlists [] (n := t.tblItems + t.arySize) (Nat.zero_le _)
      (hlists 0 (Nat.zero_le _)) (by
        have hsum := congrArg List.length hsplit
        rw [List.length_append, hlength] at hsum
        omega)
    rw [if_neg hzero, hloop, ← hsplit, List.nil_append]

/-- A table under destruction: the references of the lists below `j` are dropped, and the
other lists are as they were. -/
def Dropped (t : PtrTbl) (chains : ℕ → List ℕ) (j : ℕ) (s : PtrTbl × List ℕ) : Prop :=
  ∃ ent', s = ({ t with ent := ent' },
      ((List.range j).flatMap chains).filterMap fun a => (t.ent a).newval) ∧
    ∀ i < t.arySize, j ≤ i → ∀ a ∈ chains i, ent' a = t.ent a

/-- The references of one more list are dropped. -/
theorem Dropped.succ (h : t.Layout chains m) {j : ℕ} (hj : j < t.arySize) {s : PtrTbl × List ℕ}
    (hs : Dropped t chains j s) :
    ∃ s', (if (s.1.link (.head j)).isNone then some s
        else destroyBucket t.allocated (s.1.link (.head j)) s) = some s' ∧
      Dropped t chains (j + 1) s' := by
  obtain ⟨ent', rfl, hent⟩ := hs
  obtain ⟨ent'', hres, hent''⟩ := destroyBucket_eq (t := { t with ent := ent' })
    (((List.range j).flatMap chains).filterMap fun a => (t.ent a).newval)
    (h.chain j hj) (h.chain_nodup hj) (h.chain_length hj)
  have hvals : (chains j).filterMap (fun a => (ent' a).newval) =
      (chains j).filterMap fun a => (t.ent a).newval :=
    List.filterMap_congr fun a ha => by rw [hent j hj le_rfl a ha]
  have hnext : ((List.range (j + 1)).flatMap chains).filterMap (fun a => (t.ent a).newval) =
      ((List.range j).flatMap chains).filterMap (fun a => (t.ent a).newval) ++
        (chains j).filterMap fun a => (t.ent a).newval := by
    rw [List.range_succ, List.flatMap_append, List.filterMap_append, List.flatMap_singleton]
  -- no entry of this list is also in a later one
  have hkeep : ∀ i < t.arySize, j + 1 ≤ i → ∀ a ∈ chains i, a ∉ chains j := by
    intro i hi hji a ha haj
    have hij := h.bucket_unique hi hj ha haj
    omega
  by_cases hempty : (t.link (.head j)).isNone
  · have hnil : chains j = [] := by
      have hchain := h.chain j hj
      rw [Option.isNone_iff_eq_none.mp hempty] at hchain
      exact hchain.unique rfl
    refine ⟨_, if_pos hempty, ent', ?_, fun i hi hji => hent i hi (Nat.le_of_succ_le hji)⟩
    rw [hnext, hnil, List.filterMap_nil, List.append_nil]
  · refine ⟨_, (if_neg hempty).trans hres, ent'', ?_, fun i hi hji a ha => ?_⟩
    · rw [hnext, ← hvals]
    · rw [hent'' a (hkeep i hi hji a ha)]
      exact hent i hi (Nat.le_of_succ_le hji) a ha

/-- All lists but the last have their references dropped, and all entries are freed. -/
theorem destroy_eq (h : t.Layout chains m) :
    t.destroy = some (((List.range t.tblMax).flatMap chains).filterMap fun a => (t.ent a).newval,
      t.entries chains) := by
  have hstart : Dropped t chains 0 (t, []) := ⟨t.ent, rfl, fun _ _ _ _ _ => rfl⟩
  obtain ⟨s, hrun, ent', hs, -⟩ := Machine.foldlM_range
    (f := fun (s : PtrTbl × List ℕ) i =>
      if (s.1.link (.head i)).isNone then some s
      else destroyBucket t.allocated (s.1.link (.head i)) s)
    (I := Dropped t chains) hstart (n := t.tblMax) (by
      intro j hj s hs
      exact hs.succ h (by rw [h.size]; exact Nat.lt_succ_of_lt hj))
  have hlength := length_entries h
  have hclear : ({ t with ent := ent' } : PtrTbl).clear = some (t.entries chains) :=
    clear_eq (t := { t with ent := ent' }) h.size h.chain hlength
  rw [destroy]
  simp only [Option.bind_eq_bind]
  rw [hrun, hs]
  simp [hclear]

end PtrTbl

open PtrTbl

/-- The clone is a table with the same lists and as many entries, that gives the duplicate of
its value for each key of the source, and `NULL` for any other. -/
def ClonesAll (dup : SvPtr → SvPtr) (source : PtrTbl) (m : ℕ → Option SvPtr) : Prop :=
  ∃ t copies, source.clone dup = some t ∧ t.tblMax = source.tblMax ∧
    t.Layout copies (fun k => (m k).map dup) ∧ ∀ k, t.fetch k = some ((m k).elim none dup)

/-- Each entry loses one reference on its value. -/
def DestroysAll (t : PtrTbl) (chains : ℕ → List ℕ) : Prop :=
  ∃ released freed, t.destroy = some (released, freed) ∧
    released.Perm ((t.entries chains).filterMap fun a => (t.ent a).newval)

/-- For every table that stores and deletes lead to: cloning it copies all its entries, and
destroying it drops a reference for each of them, exactly if it has no key that belongs to
its last list. -/
theorem svptr_clone_destroy_iff (dup : SvPtr → SvPtr) (ops : List SvptrOp) :
    ∃ t chains, ops.foldlM SvptrOp.apply .new = some t ∧
      t.Layout chains (ops.foldl SvptrOp.record fun _ => none) ∧
      (ClonesAll dup t (ops.foldl SvptrOp.record fun _ => none) ∧ DestroysAll t chains ↔
        ∀ k, ops.foldl SvptrOp.record (fun _ => none) k ≠ none → k &&& t.tblMax ≠ t.tblMax) := by
  obtain ⟨t, chains, hrun, h⟩ := SvptrOp.foldlM_layout ops layout_new
  refine ⟨t, chains, hrun, h, ?_⟩
  generalize ops.foldl SvptrOp.record (fun _ => none) = m at h ⊢
  obtain ⟨c, copies, hclone, hcopied⟩ := clone_eq dup h
  constructor
  · -- the last list of the clone is empty
    rintro ⟨⟨c', copies', hclone', hmax, hlayout, -⟩, -⟩ k hk hlast
    obtain rfl := Option.some.inj (hclone.symm.trans hclone')
    obtain ⟨v, hv⟩ := Option.ne_none_iff_exists'.mp hk
    obtain ⟨b, hb, -⟩ := hlayout.complete k (dup v) (by rw [hv]; rfl)
    rw [hmax, hlast] at hb
    have hchain := hlayout.chain t.tblMax (by rw [hlayout.size, hmax]; exact Nat.lt_succ_self _)
    have hempty : copies' t.tblMax = [] := by
      rw [hchain.unique (hcopied.chain t.tblMax), hcopied.eq_nil le_rfl]
    rw [hempty] at hb
    cases hb
  · intro hkeys
    have hlast : chains t.tblMax = [] := by
      refine List.eq_nil_iff_forall_not_mem.mpr fun a ha => ?_
      have hlt : t.tblMax < t.arySize := by rw [h.size]; exact Nat.lt_succ_self _
      refine hkeys (t.ent a).oldval ?_ (h.bucket _ hlt a ha)
      rw [h.holds _ hlt a ha]
      exact Option.some_ne_none _
    have hlayout := hcopied.layout h hlast
    refine ⟨⟨c, copies, hclone, hcopied.max, hlayout, fun k => ?_⟩, ?_⟩
    · rw [hlayout.fetch_eq]
      cases m k <;> rfl
    · refine ⟨_, _, destroy_eq h, ?_⟩
      rw [entries, h.size, List.range_succ, List.flatMap_append, List.flatMap_singleton, hlast,
        List.append_nil]

/-- The last list is missing in the clone, and its values keep their reference. -/
theorem svptr_clone_loses_last :
    ([.store 511 (some 7)].foldlM SvptrOp.apply .new).bind (fun t => t.fetch 511) =
        some (some 7) ∧
      ([.store 511 (some 7)].foldlM SvptrOp.apply .new).bind
        (fun t => (t.clone id).bind fun c => c.fetch 511) = some none ∧
      ([.store 511 (some 7)].foldlM SvptrOp.apply .new).bind
        (fun t => t.destroy.map Prod.fst) = some [] :=
  ⟨by decide +kernel, by decide +kernel, by decide +kernel⟩

end ModPerl
