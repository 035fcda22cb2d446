import ModPerl.Library.Machine
import ModPerl.Library.SinglyLinked
import Mathlib.Algebra.BigOperators.Fin
import Mathlib.Data.Nat.Bitwise

/-!
# The table of config objects

`modperl_svptr_table.c` maps pointers to the SVs of an interpreter: an array of
lists, one for each value of `key & tbl_max`, which is doubled when there are
more entries than lists.  The entries are linked in place; here they are numbered
in the order in which they are allocated, and a slot is an element of the array
or the `next` field of an entry.  A walk over a list is given as many steps as
entries were ever allocated: a list that is longer has no end.

The sizes and the keys are natural numbers.  Entries lie in the memory that the
keys point into, so that there are never as many of them as a word can count.
-/

namespace ModPerl

open SinglyLinked

/-- A pointer to an `SV`. -/
abbrev SvPtr := Option ℕ

/-- `PTR_TBL_ENT_t`, but for `next`. -/
structure PtrTblEnt where
  oldval : ℕ
  newval : SvPtr
  deriving DecidableEq

/-- `PTR_TBL_t`, and the memory of its array and of its entries. -/
structure PtrTbl where
  tblMax : ℕ
  tblItems : ℕ
  /-- The number of elements of `tbl_ary`. -/
  arySize : ℕ
  link : Links ℕ ℕ
  ent : ℕ → PtrTblEnt
  /-- The number of entries that were allocated. -/
  allocated : ℕ

namespace PtrTbl

/-- `modperl_svptr_table_new` -/
def new : PtrTbl where
  tblMax := 511
  tblItems := 0
  arySize := 511 + 1
  link := fun _ => none
  ent := fun _ => ⟨0, none⟩
  allocated := 0

/-- `&tbl->tbl_ary[hash & tbl->tbl_max]` -/
def bucket (t : PtrTbl) (key : ℕ) : SinglyLinked.Slot ℕ ℕ := .head (key &&& t.tblMax)

/-- The loop of `modperl_svptr_table_fetch` and `modperl_svptr_table_store`, with the flag
`i` of the latter. -/
def scan (t : PtrTbl) (key : ℕ) : ℕ → Bool → Option ℕ → Option (Bool × Option ℕ)
  | 0, i, tblent => if tblent.isNone then some (i, none) else none
  | n + 1, i, tblent =>
      match tblent with
      | none => some (i, none)
      | some a =>
          if (t.ent a).oldval = key then some (i, some a)
          else scan t key n false (t.link (.next a))

/-- `modperl_svptr_table_fetch` -/
def fetch (t : PtrTbl) (sv : ℕ) : Option SvPtr :=
  (t.scan sv t.allocated true (t.link (t.bucket sv))).map fun r =>
    r.2.bind fun a => (t.ent a).newval

/-- `Renew` and `Zero` of `modperl_svptr_table_split`. -/
def renewAry (t : PtrTbl) (newsize : ℕ) : Links ℕ ℕ
  | .head i => if t.tblMax + 1 ≤ i ∧ i < newsize then none else t.link (.head i)
  | .next a => t.link (.next a)

/-- The loop of `modperl_svptr_table_split` for one of the old lists; `newsize` is the new
`tbl_max`. -/
def splitBucket (t : PtrTbl) (newsize : ℕ) (link : Links ℕ ℕ) (i : ℕ) : Option (Links ℕ ℕ) :=
  if (link (.head i)).isNone then some link
  else
    relink (fun ent => newsize &&& (t.ent ent).oldval = i) (.head (i + (t.tblMax + 1)))
      t.allocated link (.head i)

/-- `modperl_svptr_table_split` -/
def split (t : PtrTbl) : Option PtrTbl :=
  let oldsize := t.tblMax + 1
  let newsize := oldsize * 2
  ((List.range oldsize).foldlM (t.splitBucket (newsize - 1)) (t.renewAry newsize)).map
    fun link => { t with tblMax := newsize - 1, arySize := newsize, link := link }

/-- The lines of `modperl_svptr_table_store` that put a new entry in front of its list. -/
def push (t : PtrTbl) (oldv : ℕ) (newv : SvPtr) : PtrTbl :=
  let tblent := t.allocated
  let otblent := t.bucket oldv
  { t with
    ent := Function.update t.ent tblent ⟨oldv, newv⟩
    link := write (write t.link (.next tblent) (t.link otblent)) otblent (some tblent)
    tblItems := t.tblItems + 1
    allocated := t.allocated + 1 }

/-- `modperl_svptr_table_store` -/
def store (t : PtrTbl) (oldv : ℕ) (newv : SvPtr) : Option PtrTbl :=
  (t.scan oldv t.allocated true (t.link (t.bucket oldv))).bind fun
    | (_, some a) => some { t with ent := Function.update t.ent a { t.ent a with newval := newv } }
    | (i, none) =>
        let t' := t.push oldv newv
        if i ∧ t'.tblItems > t'.tblMax then t'.split else some t'

/-- `modperl_svptr_table_delete`, and the SV that loses a reference. -/
def delete (t : PtrTbl) (key : ℕ) : Option (PtrTbl × SvPtr) :=
  (seek t.link (fun a => (t.ent a).oldval = key) t.allocated (t.bucket key)).map fun
    | none => (t, none)
    | some (oentry, a) =>
        ({ t with link := write t.link oentry (t.link (.next a)), tblItems := t.tblItems - 1 },
          (t.ent a).newval)

end PtrTbl

/-- A store or a delete. -/
inductive SvptrOp
  | store (key : ℕ) (val : SvPtr)
  | delete (key : ℕ)
  deriving DecidableEq

/-- The table after a store or a delete. -/
def SvptrOp.apply (t : PtrTbl) : SvptrOp → Option PtrTbl
  | store key val => t.store key val
  | delete key => (t.delete key).map Prod.fst

/-- The value last stored for each key, and not deleted since. -/
def SvptrOp.record (m : ℕ → Option SvPtr) : SvptrOp → ℕ → Option SvPtr
  | store key val => Function.update m key (some val)
  | delete key => Function.update m key none

/-- The entries of a table, list by list, with the map that they represent. -/
structure PtrTbl.Layout (t : PtrTbl) (chains : ℕ → List ℕ) (m : ℕ → Option SvPtr) : Prop where
  size : t.arySize = t.tblMax + 1
  pow : ∃ n, t.arySize = 2 ^ n
  chain : ∀ i < t.arySize, Chain t.link (t.link (.head i)) (chains i)
  alloc : ∀ i < t.arySize, ∀ a ∈ chains i, a < t.allocated
  bucket : ∀ i < t.arySize, ∀ a ∈ chains i, (t.ent a).oldval &&& t.tblMax = i
  keys : ∀ i < t.arySize, ((chains i).map fun a => (t.ent a).oldval).Nodup
  items : t.tblItems = ∑ i ∈ Finset.range t.arySize, (chains i).length
  holds : ∀ i < t.arySize, ∀ a ∈ chains i, m (t.ent a).oldval = some (t.ent a).newval
  complete : ∀ k v, m k = some v → ∃ a ∈ chains (k &&& t.tblMax), (t.ent a).oldval = k

namespace PtrTbl

variable {t : PtrTbl} {chains : ℕ → List ℕ} {m : ℕ → Option SvPtr} {k : ℕ}

/-- No entry yet. -/
theorem layout_new : new.Layout (fun _ => []) (fun _ => none) where
  size := rfl
  pow := ⟨9, rfl⟩
  chain := fun _ _ => rfl
  alloc := by simp
  bucket := by simp
  keys := by simp
  items := by simp [new]
  holds := by simp
  complete := by simp

namespace Layout

variable (h : t.Layout chains m)

include h

theorem and_lt : k &&& t.tblMax < t.arySize := by
  rw [h.size]
  exact Nat.lt_succ_of_le Nat.and_le_right

/-- An entry is in the list of its key only. -/
theorem bucket_unique {i j a : ℕ} (hi : i < t.arySize) (hj : j < t.arySize) (ha : a ∈ chains i)
    (ha' : a ∈ chains j) : i = j := by
  rw [← h.bucket i hi a ha, h.bucket j hj a ha']

theorem chain_nodup {i : ℕ} (hi : i < t.arySize) : (chains i).Nodup :=
  (h.keys i hi).of_map _

theorem chain_length {i : ℕ} (hi : i < t.arySize) : (chains i).length ≤ t.allocated := by
  have hsub : chains i ⊆ List.range t.allocated := fun a ha =>
    List.mem_range.mpr (h.alloc i hi a ha)
  have hle := (h.chain_nodup hi).length_le_of_subset hsub
  rwa [List.length_range] at hle

/-- A key is in one entry. -/
theorem key_unique {i j a b : ℕ} (hi : i < t.arySize) (hj : j < t.arySize) (ha : a ∈ chains i)
    (hb : b ∈ chains j) (hkey : (t.ent a).oldval = (t.ent b).oldval) : a = b := by
  have hij : i = j := by rw [← h.bucket i hi a ha, hkey, h.bucket j hj b hb]
  subst hij
  exact List.inj_on_of_nodup_map (h.keys i hi) ha hb hkey

end Layout

/-! ## Fetch -/

/-- The loop ends at the entry of the key, if there is one. -/
theorem scan_eq {xs : List ℕ} {p : Option ℕ} {n : ℕ} {i : Bool} (hchain : Chain t.link p xs)
    (hn : xs.length ≤ n) :
    ∃ i', t.scan k n i p = some (i', xs.find? fun a => (t.ent a).oldval = k) := by
  induction xs generalizing p n i with
  | nil =>
      have hnull : p = none := hchain
      subst hnull
      cases n with
      | zero => exact ⟨i, rfl⟩
      | succ n => exact ⟨i, rfl⟩
  | cons a xs ih =>
      obtain ⟨n, rfl, hn'⟩ := exists_succ hn
      obtain ⟨rfl, hrest⟩ := hchain
      by_cases hkey : (t.ent a).oldval = k
      · refine ⟨i, ?_⟩
        rw [scan, List.find?_cons_of_pos (by simpa using hkey)]
        exact if_pos hkey
      · obtain ⟨i', hi'⟩ := ih (i := false) hrest hn'
        refine ⟨i', ?_⟩
        rw [List.find?_cons_of_neg (by simpa using hkey), ← hi', scan]
        exact if_neg hkey

namespace Layout

variable (h : t.Layout chains m)

include h

/-- The entry of a key, found by the loop. -/
theorem scan_eq {i : Bool} :
    ∃ i', t.scan k t.allocated i (t.link (t.bucket k)) =
      some (i', (chains (k &&& t.tblMax)).find? fun a => (t.ent a).oldval = k) :=
  PtrTbl.scan_eq (h.chain _ h.and_lt) (h.chain_length h.and_lt)

theorem eq_some_of_find {a : ℕ}
    (hfind : (chains (k &&& t.tblMax)).find? (fun a => (t.ent a).oldval = k) = some a) :
    a ∈ chains (k &&& t.tblMax) ∧ (t.ent a).oldval = k ∧ m k = some (t.ent a).newval := by
  have hmem := List.mem_of_find?_eq_some hfind
  have hkey : (t.ent a).oldval = k := by simpa using List.find?_some hfind
  refine ⟨hmem, hkey, ?_⟩
  rw [← h.holds _ h.and_lt a hmem, hkey]

theorem eq_none_of_find
    (hfind : (chains (k &&& t.tblMax)).find? (fun a => (t.ent a).oldval = k) = none) :
    m k = none := by
  cases hm : m k with
  | none => rfl
  | some v =>
      obtain ⟨a, ha, hkey⟩ := h.complete k v hm
      exact absurd hkey (by simpa using List.find?_eq_none.mp hfind a ha)

/-- A fetch finds what the map says, and `NULL` for a key that is not there. -/
theorem fetch_eq : t.fetch k = some (m k).join := by
  obtain ⟨i, hi⟩ := h.scan_eq (k := k) (i := true)
  rw [fetch, hi]
  cases hfind : (chains (k &&& t.tblMax)).find? (fun a => (t.ent a).oldval = k) with
  | none =>
      rw [h.eq_none_of_find hfind]
      rfl
  | some a =>
      obtain ⟨-, -, hm⟩ := h.eq_some_of_find hfind
      rw [hm]
      rfl

end Layout

/-! ## Store -/

/-- The number of entries when the list of one bucket changes. -/
theorem sum_length_update (chains : ℕ → List ℕ) (ys : List ℕ) {n b : ℕ} (hb : b < n) :
    ∑ i ∈ Finset.range n, (Function.update chains b ys i).length + (chains b).length =
      ∑ i ∈ Finset.range n, (chains i).length + ys.length := by
  have hmem : b ∈ Finset.range n := Finset.mem_range.mpr hb
  have hrest : ∑ i ∈ (Finset.range n).erase b, (Function.update chains b ys i).length =
      ∑ i ∈ (Finset.range n).erase b, (chains i).length := by
    refine Finset.sum_congr rfl fun i hi => ?_
    rw [Function.update_of_ne (Finset.ne_of_mem_erase hi)]
  rw [← Finset.add_sum_erase _ _ hmem, ← Finset.add_sum_erase _ (fun i => (chains i).length) hmem,
    hrest, Function.update_self]
  omega

namespace Layout

variable (h : t.Layout chains m)

include h

/-- The value of an entry is replaced. -/
theorem replace {a : ℕ} {v : SvPtr} (ha : a ∈ chains (k &&& t.tblMax))
    (hkey : (t.ent a).oldval = k) :
    Layout { t with ent := Function.update t.ent a { t.ent a with newval := v } } chains
      (Function.update m k (some v)) := by
  have hold : ∀ b, (Function.update t.ent a { t.ent a with newval := v } b).oldval =
      (t.ent b).oldval := by
    intro b
    by_cases hb : b = a
    · rw [hb, Function.update_self]
    · rw [Function.update_of_ne hb]
  refine ⟨h.size, h.pow, h.chain, h.alloc, ?bucket, ?keys, h.items, ?holds, ?complete⟩
  case bucket =>
    intro i hi b hb
    rw [hold]
    exact h.bucket i hi b hb
  case keys =>
    intro i hi
    simpa only [hold] using h.keys i hi
  case holds =>
    intro i hi b hb
    rw [hold]
    dsimp only
    by_cases hba : b = a
    · subst hba
      rw [hkey, Function.update_self, Function.update_self]
    · have hne : (t.ent b).oldval ≠ k := fun heq =>
        hba (h.key_unique hi h.and_lt hb ha (heq.trans hkey.symm))
      rw [Function.update_of_ne hne, Function.update_of_ne hba]
      exact h.holds i hi b hb
  case complete =>
    intro k' v' hm
    simp only [hold]
    by_cases hk : k' = k
    · subst hk
      exact ⟨a, ha, hkey⟩
    · rw [Function.update_of_ne hk] at hm
      exact h.complete k' v' hm

end Layout

section Push

variable {v : SvPtr}

theorem push_ent_self : (t.push k v).ent t.allocated = ⟨k, v⟩ := Function.update_self ..

theorem push_ent_of_ne {a : ℕ} (ha : a ≠ t.allocated) : (t.push k v).ent a = t.ent a :=
  Function.update_of_ne ha ..

theorem push_link_bucket : (t.push k v).link (t.bucket k) = some t.allocated := write_self

theorem push_link_next : (t.push k v).link (.next t.allocated) = t.link (t.bucket k) := by
  have hne : (.next t.allocated : SinglyLinked.Slot ℕ ℕ) ≠ t.bucket k := fun heq => nomatch heq
  simp only [push, write_of_ne hne, write_self]

theorem push_link_of_ne {u : SinglyLinked.Slot ℕ ℕ} (hu : u ≠ t.bucket k)
    (hu' : u ≠ .next t.allocated) :
    (t.push k v).link u = t.link u :=
  (write_of_ne hu).trans (write_of_ne hu')

end Push

namespace Layout

variable (h : t.Layout chains m)

include h

theorem ne_allocated {i a : ℕ} (hi : i < t.arySize) (ha : a ∈ chains i) : a ≠ t.allocated :=
  (h.alloc i hi a ha).ne

/-- Each list is still there when an entry is put in front of one of them. -/
theorem chain_push {i : ℕ} {v : SvPtr} (hi : i < t.arySize) :
    Chain (t.push k v).link (t.link (.head i)) (chains i) := by
  refine (h.chain i hi).congr fun a ha => push_link_of_ne ?_ ?_
  · exact fun heq => nomatch heq
  · exact fun heq => h.ne_allocated hi ha (SinglyLinked.Slot.next.inj heq)

/-- A new entry is put in front of the list of its key. -/
theorem push {v : SvPtr} (hk : m k = none) :
    (t.push k v).Layout
      (Function.update chains (k &&& t.tblMax) (t.allocated :: chains (k &&& t.tblMax)))
      (Function.update m k (some v)) := by
  have hent : ∀ i < t.arySize, ∀ a ∈ chains i, (t.push k v).ent a = t.ent a :=
    fun i hi a ha => push_ent_of_ne (h.ne_allocated hi ha)
  have hnotkey : ∀ i < t.arySize, ∀ a ∈ chains i, (t.ent a).oldval ≠ k := by
    intro i hi a ha heq
    have hm := h.holds i hi a ha
    rw [heq, hk] at hm
    cases hm
  -- the entries of a list, once the list of the key has its new entry
  have hmem : ∀ i < t.arySize, ∀ a ∈ Function.update chains (k &&& t.tblMax)
      (t.allocated :: chains (k &&& t.tblMax)) i,
      (i = k &&& t.tblMax ∧ a = t.allocated) ∨ a ∈ chains i := by
    intro i hi a ha
    by_cases hib : i = k &&& t.tblMax
    · subst hib
      rw [Function.update_self] at ha
      exact (List.mem_cons.mp ha).imp_left fun heq => ⟨rfl, heq⟩
    · rw [Function.update_of_ne hib] at ha
      exact .inr ha
  refine ⟨h.size, h.pow, ?chain, ?alloc, ?bucket, ?keys, ?items, ?holds, ?complete⟩
  case chain =>
    intro i hi
    by_cases hib : i = k &&& t.tblMax
    · subst hib
      rw [Function.update_self]
      refine ⟨push_link_bucket, ?_⟩
      rw [push_link_next]
      exact h.chain_push hi
    · have hhead : (t.push k v).link (.head i) = t.link (.head i) :=
        push_link_of_ne (fun heq => hib (SinglyLinked.Slot.head.inj heq)) (fun heq => nomatch heq)
      rw [Function.update_of_ne hib, hhead]
      exact h.chain_push hi
  case alloc =>
    intro i hi a ha
    rcases hmem i hi a ha with ⟨-, rfl⟩ | ha
    · exact Nat.lt_succ_self _
    · exact Nat.lt_succ_of_lt (h.alloc i hi a ha)
  case bucket =>
    intro i hi a ha
    rcases hmem i hi a ha with ⟨rfl, rfl⟩ | ha
    · rw [push_ent_self]
      rfl
    · rw [hent i hi a ha]
      exact h.bucket i hi a ha
  case keys =>
    intro i hi
    have hmap : (chains i).map (fun a => ((t.push k v).ent a).oldval) =
        (chains i).map fun a => (t.ent a).oldval :=
      List.map_congr_left fun a ha => by rw [hent i hi a ha]
    by_cases hib : i = k &&& t.tblMax
    · subst hib
      rw [Function.update_self, List.map_cons, List.nodup_cons, hmap, push_ent_self]
      refine ⟨fun hkmem => ?_, h.keys _ hi⟩
      obtain ⟨a, ha, hkey⟩ := List.mem_map.mp hkmem
      exact hnotkey _ hi a ha hkey
    · rw [Function.update_of_ne hib, hmap]
      exact h.keys i hi
  case items =>
    have hsum := sum_length_update chains
      (t.allocated :: chains (k &&& t.tblMax)) (h.and_lt (k := k))
    rw [List.length_cons, ← h.items] at hsum
    show t.tblItems + 1 = ∑ i ∈ Finset.range t.arySize, _
    omega
  case holds =>
    intro i hi a ha
    rcases hmem i hi a ha with ⟨rfl, rfl⟩ | ha
    · rw [push_ent_self, Function.update_self]
    · rw [hent i hi a ha, Function.update_of_ne (hnotkey i hi a ha)]
      exact h.holds i hi a ha
  case complete =>
    intro k' v' hm
    by_cases hkk : k' = k
    · -- the new entry
      subst hkk
      refine ⟨t.allocated, ?_, by rw [push_ent_self]⟩
      exact (Function.update_self (k' &&& t.tblMax) _ chains).symm ▸ List.mem_cons_self
    · rw [Function.update_of_ne hkk] at hm
      obtain ⟨a, ha, hkey⟩ := h.complete k' v' hm
      refine ⟨a, ?_, by rw [hent _ h.and_lt a ha, hkey]⟩
      show a ∈ Function.update chains (k &&& t.tblMax) _ (k' &&& t.tblMax)
      by_cases hib : k' &&& t.tblMax = k &&& t.tblMax
      · rw [hib, Function.update_self, ← hib]
        exact List.mem_cons_of_mem _ ha
      · rw [Function.update_of_ne hib]
        exact ha

end Layout

/-! ## Split -/

theorem renewAry_head {n i : ℕ} (hi : i < t.tblMax + 1) :
    t.renewAry n (.head i) = t.link (.head i) :=
  if_neg fun hnew => absurd hi (not_lt.mpr hnew.1)

theorem renewAry_head_new {n i : ℕ} (hi : t.tblMax + 1 ≤ i) (hn : i < n) :
    t.renewAry n (.head i) = none :=
  if_pos ⟨hi, hn⟩

/-- An entry stays in its list when the table is doubled. -/
def stays (t : PtrTbl) (i a : ℕ) : Bool := t.arySize * 2 - 1 &&& (t.ent a).oldval = i

/-- The lists of the doubled table, of which those below `j` have been split. -/
def splitChains (t : PtrTbl) (chains : ℕ → List ℕ) (j i : ℕ) : List ℕ :=
  if i < t.arySize then if i < j then (chains i).filter (t.stays i) else chains i
  else if i - t.arySize < j then
    ((chains (i - t.arySize)).filter fun a => !t.stays (i - t.arySize) a).reverse
  else []

namespace Layout

variable (h : t.Layout chains m)

include h

theorem and_eq_mod : k &&& t.tblMax = k % t.arySize := by
  obtain ⟨n, hn⟩ := h.pow
  have hmax : t.tblMax = 2 ^ n - 1 := by rw [← hn, h.size]; rfl
  rw [hmax, hn, Nat.and_two_pow_sub_one_eq_mod]

theorem and_double_eq_mod : k &&& (t.arySize * 2 - 1) = k % (t.arySize * 2) := by
  obtain ⟨n, hn⟩ := h.pow
  rw [hn, ← pow_succ, Nat.and_two_pow_sub_one_eq_mod]

theorem stays_iff {i a : ℕ} :
    t.stays i a = true ↔ (t.ent a).oldval % (t.arySize * 2) = i := by
  rw [stays, decide_eq_true_iff, Nat.land_comm, h.and_double_eq_mod]

/-- An entry that does not stay belongs to the list that is as far behind as there were
lists. -/
theorem mod_of_not_stays {i a : ℕ} (hi : i < t.arySize) (ha : a ∈ chains i)
    (hstays : t.stays i a = false) : (t.ent a).oldval % (t.arySize * 2) = i + t.arySize := by
  have hmod : (t.ent a).oldval % t.arySize = i := by
    rw [← h.and_eq_mod, h.bucket i hi a ha]
  have hne : (t.ent a).oldval % (t.arySize * 2) ≠ i := fun heq => by
    rw [h.stays_iff.mpr heq] at hstays
    cases hstays
  rw [Nat.mod_mul, hmod] at hne ⊢
  rcases Nat.mod_two_eq_zero_or_one ((t.ent a).oldval / t.arySize) with hbit | hbit
  · rw [hbit, Nat.mul_zero] at hne
    exact absurd rfl hne
  · rw [hbit, Nat.mul_one]

omit h in
theorem splitChains_succ_of_ne {i j : ℕ} (hi : i ≠ j) (hi' : i ≠ j + t.arySize) :
    t.splitChains chains (j + 1) i = t.splitChains chains j i := by
  unfold splitChains
  by_cases hold : i < t.arySize
  · have hiff : i < j + 1 ↔ i < j := by omega
    simp only [if_pos hold, hiff]
  · have hiff : i - t.arySize < j + 1 ↔ i - t.arySize < j := by omega
    simp only [if_neg hold, hiff]

/-- The entries of other lists are not touched while one list is split. -/
theorem not_mem_of_splitChains {i j a : ℕ} (hj : j < t.arySize) (hi : i ≠ j)
    (ha : a ∈ t.splitChains chains j i) : a ∉ chains j := by
  intro haj
  unfold splitChains at ha
  split_ifs at ha with hold hlt hlt
  · exact hi (h.bucket_unique hold hj (List.mem_of_mem_filter ha) haj)
  · exact hi (h.bucket_unique hold hj ha haj)
  · have hmem : a ∈ chains (i - t.arySize) :=
      List.mem_of_mem_filter (List.mem_reverse.mp ha)
    have hij : i - t.arySize = j := h.bucket_unique (by omega) hj hmem haj
    omega
  · cases ha

/-- One list is split in two. -/
theorem splitBucket_eq {j : ℕ} {link : Links ℕ ℕ} (hj : j < t.arySize)
    (hchain : ∀ i < t.arySize * 2, Chain link (link (.head i)) (t.splitChains chains j i)) :
    ∃ link', t.splitBucket (t.arySize * 2 - 1) link j = some link' ∧
      ∀ i < t.arySize * 2, Chain link' (link' (.head i)) (t.splitChains chains (j + 1) i) := by
  have hold : Chain link (link (.head j)) (chains j) := by
    have hj' := hchain j (by omega)
    rwa [splitChains, if_pos hj, if_neg (lt_irrefl j)] at hj'
  have hnew : Chain link (link (.head (j + t.arySize))) [] := by
    have hj' := hchain (j + t.arySize) (by omega)
    rwa [splitChains, if_neg (by omega), if_neg (by omega)] at hj'
  have hkept : t.splitChains chains (j + 1) j = (chains j).filter (t.stays j) := by
    rw [splitChains, if_pos hj, if_pos (Nat.lt_succ_self j)]
  have hmoved : t.splitChains chains (j + 1) (j + t.arySize) =
      ((chains j).filter fun a => !t.stays j a).reverse := by
    rw [splitChains, if_neg (by omega), if_pos (by omega), Nat.add_sub_cancel]
  unfold splitBucket
  by_cases hempty : (link (.head j)).isNone
  · -- nothing to split
    have hnil : chains j = [] := by
      rw [Option.isNone_iff_eq_none.mp hempty] at hold
      exact hold.unique rfl
    refine ⟨link, if_pos hempty, fun i hi => ?_⟩
    by_cases hij : i = j
    · subst hij
      rw [hkept, hnil]
      exact Option.isNone_iff_eq_none.mp hempty
    by_cases hij' : i = j + t.arySize
    · subst hij'
      rw [hmoved, hnil]
      exact hnew
    · rw [splitChains_succ_of_ne hij hij']
      exact hchain i hi
  · -- what moves goes to the new list, which is empty until then
    obtain ⟨link', hres, hstay, hmove, hframe⟩ :=
      relink_spec (t.stays j) hold hnew (h.chain_nodup hj) (by simp)
        (fun heq => by have := SinglyLinked.Slot.head.inj heq; omega) (fun b _ heq => nomatch heq)
        (fun b _ heq => nomatch heq) (h.chain_length hj)
    rw [List.append_nil] at hmove
    refine ⟨link', ?_, fun i hi => ?_⟩
    · rw [if_neg hempty, ← h.size]
      exact hres
    by_cases hij : i = j
    · subst hij
      rw [hkept]
      exact hstay
    by_cases hij' : i = j + t.arySize
    · subst hij'
      rw [hmoved]
      exact hmove
    · have hhead : link' (.head i) = link (.head i) :=
        hframe _ (fun heq => hij (SinglyLinked.Slot.head.inj heq))
          (fun heq => hij' (SinglyLinked.Slot.head.inj heq))
          (fun b _ heq => nomatch heq)
      rw [splitChains_succ_of_ne hij hij', hhead]
      refine (hchain i hi).congr fun a ha => ?_
      refine hframe _ (fun heq => nomatch heq) (fun heq => nomatch heq) fun b hb heq => ?_
      exact h.not_mem_of_splitChains hj hij ha (SinglyLinked.Slot.next.inj heq ▸ hb)

/-- Splitting one list after the other. -/
theorem foldlM_splitBucket :
    ∃ link, (List.range t.arySize).foldlM (t.splitBucket (t.arySize * 2 - 1))
        (t.renewAry (t.arySize * 2)) = some link ∧
      ∀ i < t.arySize * 2, Chain link (link (.head i)) (t.splitChains chains t.arySize i) := by
  refine Machine.foldlM_range
    (I := fun j link => ∀ i < t.arySize * 2, Chain link (link (.head i)) (t.splitChains chains j i))
    (fun i hi => ?_) fun j hj link hchain => h.splitBucket_eq hj hchain
  unfold splitChains
  by_cases hold : i < t.arySize
  · rw [if_pos hold, if_neg (Nat.not_lt_zero i), renewAry_head (h.size ▸ hold)]
    exact (h.chain i hold).congr fun a _ => rfl
  · rw [if_neg hold, if_neg (Nat.not_lt_zero _), renewAry_head_new (h.size ▸ not_lt.mp hold) hi]
    rfl

/-- An entry of the doubled table was in one of the lists, and is in the one that its key
belongs to now. -/
theorem mem_splitChains {i a : ℕ} (hi : i < t.arySize * 2)
    (ha : a ∈ t.splitChains chains t.arySize i) :
    (∃ j < t.arySize, a ∈ chains j) ∧ (t.ent a).oldval % (t.arySize * 2) = i := by
  unfold splitChains at ha
  by_cases hold : i < t.arySize
  · rw [if_pos hold, if_pos hold] at ha
    obtain ⟨hmem, hstays⟩ := List.mem_filter.mp ha
    exact ⟨⟨i, hold, hmem⟩, h.stays_iff.mp hstays⟩
  · have hlt : i - t.arySize < t.arySize := by omega
    rw [if_neg hold, if_pos hlt, List.mem_reverse] at ha
    obtain ⟨hmem, hstays⟩ := List.mem_filter.mp ha
    refine ⟨⟨i - t.arySize, hlt, hmem⟩, ?_⟩
    rw [h.mod_of_not_stays hlt hmem (by simpa using hstays)]
    omega

theorem mem_splitChains_of_mem {a : ℕ} (ha : a ∈ chains ((t.ent a).oldval % t.arySize))
    (hlt : (t.ent a).oldval % t.arySize < t.arySize) :
    a ∈ t.splitChains chains t.arySize ((t.ent a).oldval % (t.arySize * 2)) := by
  unfold splitChains
  by_cases hstays : t.stays ((t.ent a).oldval % t.arySize) a = true
  · rw [h.stays_iff.mp hstays, if_pos hlt, if_pos hlt]
    exact List.mem_filter.mpr ⟨ha, hstays⟩
  · have hstays' := eq_false_of_ne_true hstays
    rw [h.mod_of_not_stays hlt ha hstays', if_neg (by omega), Nat.add_sub_cancel, if_pos hlt,
      List.mem_reverse]
    exact List.mem_filter.mpr ⟨ha, by simp [hstays']⟩

theorem keys_splitChains {i : ℕ} (hi : i < t.arySize * 2) :
    ((t.splitChains chains t.arySize i).map fun a => (t.ent a).oldval).Nodup := by
  unfold splitChains
  by_cases hold : i < t.arySize
  · rw [if_pos hold, if_pos hold]
    exact (h.keys i hold).sublist (List.filter_sublist.map _)
  · have hlt : i - t.arySize < t.arySize := by omega
    rw [if_neg hold, if_pos hlt, List.map_reverse, List.nodup_reverse]
    exact (h.keys _ hlt).sublist (List.filter_sublist.map _)

omit h in
theorem items_splitChains :
    ∑ i ∈ Finset.range (t.arySize * 2), (t.splitChains chains t.arySize i).length =
      ∑ i ∈ Finset.range t.arySize, (chains i).length := by
  rw [Nat.mul_two, Finset.sum_range_add, ← Finset.sum_add_distrib]
  refine Finset.sum_congr rfl fun i hi => ?_
  have hlt : i < t.arySize := Finset.mem_range.mp hi
  have hkept : t.splitChains chains t.arySize i = (chains i).filter (t.stays i) := by
    rw [splitChains, if_pos hlt, if_pos hlt]
  have hmoved : t.splitChains chains t.arySize (t.arySize + i) =
      ((chains i).filter fun a => !t.stays i a).reverse := by
    rw [splitChains, if_neg (by omega), Nat.add_sub_cancel_left, if_pos hlt]
  rw [hkept, hmoved, List.length_reverse]
  exact (List.length_eq_length_filter_add _).symm

/-- A table that is doubled represents the same map. -/
theorem split : ∃ t', t.split = some t' ∧
    t'.Layout (t.splitChains chains t.arySize) m := by
  obtain ⟨link, hfold, hchain⟩ := h.foldlM_splitBucket
  have hmod : ∀ k, k &&& (t.arySize * 2 - 1) = k % (t.arySize * 2) := fun k =>
    h.and_double_eq_mod
  have hpos : 0 < t.arySize := by rw [h.size]; exact Nat.succ_pos _
  refine ⟨{ t with tblMax := t.arySize * 2 - 1, arySize := t.arySize * 2, link := link }, ?_, ?_⟩
  · rw [PtrTbl.split, ← h.size, hfold]
    rfl
  refine ⟨?size, ?pow, hchain, ?alloc, ?bucket, ?keys, ?items, ?holds, ?complete⟩
  case size =>
    show t.arySize * 2 = t.arySize * 2 - 1 + 1
    omega
  case pow =>
    obtain ⟨n, hn⟩ := h.pow
    exact ⟨n + 1, by rw [pow_succ, ← hn]⟩
  case alloc =>
    intro i hi a ha
    obtain ⟨⟨j, hj, hmem⟩, -⟩ := h.mem_splitChains hi ha
    exact h.alloc j hj a hmem
  case bucket =>
    intro i hi a ha
    exact (hmod _).trans (h.mem_splitChains hi ha).2
  case keys =>
    intro i hi
    exact h.keys_splitChains hi
  case items =>
    exact h.items.trans items_splitChains.symm
  case holds =>
    intro i hi a ha
    obtain ⟨⟨j, hj, hmem⟩, -⟩ := h.mem_splitChains hi ha
    exact h.holds j hj a hmem
  case complete =>
    intro k v hm
    obtain ⟨a, ha, hkey⟩ := h.complete k v hm
    refine ⟨a, ?_, hkey⟩
    rw [h.and_eq_mod, ← hkey] at ha
    show a ∈ t.splitChains chains t.arySize (k &&& (t.arySize * 2 - 1))
    rw [hmod, ← hkey]
    exact h.mem_splitChains_of_mem ha (Nat.mod_lt _ hpos)

/-- A store replaces the value of its key, or adds an entry. -/
theorem store {v : SvPtr} : ∃ t' chains', t.store k v = some t' ∧
    t'.Layout chains' (Function.update m k (some v)) := by
  obtain ⟨i, hscan⟩ := h.scan_eq (k := k) (i := true)
  rw [PtrTbl.store, hscan]
  cases hfind : (chains (k &&& t.tblMax)).find? (fun a => (t.ent a).oldval = k) with
  | some a =>
      obtain ⟨hmem, hkey, -⟩ := h.eq_some_of_find hfind
      exact ⟨_, chains, rfl, h.replace hmem hkey⟩
  | none =>
      have hpush := h.push (v := v) (h.eq_none_of_find hfind)
      by_cases hsplit : i ∧ (t.push k v).tblItems > (t.push k v).tblMax
      · obtain ⟨t', ht', hlayout⟩ := hpush.split
        exact ⟨t', _, (if_pos hsplit).trans ht', hlayout⟩
      · exact ⟨_, _, if_neg hsplit, hpush⟩

/-! ## Delete -/

/-- One entry is left out of its list. -/
theorem unlink {link : Links ℕ ℕ} {pre post : List ℕ} {a : ℕ}
    (hsplit : chains (k &&& t.tblMax) = pre ++ a :: post) (hkey : (t.ent a).oldval = k)
    (hchain : Chain link (link (t.bucket k)) (pre ++ post))
    (hframe : ∀ u, u ≠ t.bucket k → (∀ b ∈ chains (k &&& t.tblMax), u ≠ .next b) →
      link u = t.link u) :
    Layout { t with link := link, tblItems := t.tblItems - 1 }
      (Function.update chains (k &&& t.tblMax) (pre ++ post)) (Function.update m k none) := by
  have ha : a ∈ chains (k &&& t.tblMax) := by
    rw [hsplit]
    exact List.mem_append_right _ List.mem_cons_self
  have hsub : (pre ++ post).Sublist (pre ++ a :: post) :=
    (List.append_sublist_append_left pre).mpr (List.sublist_cons_self a post)
  -- what is left in a list was there before, and has another key
  have hmem : ∀ i < t.arySize, ∀ b ∈ Function.update chains (k &&& t.tblMax) (pre ++ post) i,
      b ∈ chains i ∧ (t.ent b).oldval ≠ k := by
    intro i hi b hb
    by_cases hib : i = k &&& t.tblMax
    · subst hib
      rw [Function.update_self] at hb
      have hbold : b ∈ chains (k &&& t.tblMax) := by
        rw [hsplit]
        exact hsub.subset hb
      refine ⟨hbold, fun heq => ?_⟩
      have hba : b = a := h.key_unique hi hi hbold ha (heq.trans hkey.symm)
      have hnodup := h.chain_nodup hi
      rw [hsplit] at hnodup
      exact (List.nodup_cons.mp (List.nodup_middle.mp hnodup)).1 (hba ▸ hb)
    · rw [Function.update_of_ne hib] at hb
      refine ⟨hb, fun heq => hib ?_⟩
      rw [← h.bucket i hi b hb, heq]
  refine ⟨h.size, h.pow, ?chain, ?alloc, ?bucket, ?keys, ?items, ?holds, ?complete⟩
  case chain =>
    intro i hi
    by_cases hib : i = k &&& t.tblMax
    · subst hib
      rw [Function.update_self]
      exact hchain
    · have hhead : link (.head i) = t.link (.head i) :=
        hframe _ (fun heq => hib (SinglyLinked.Slot.head.inj heq)) (fun b _ heq => nomatch heq)
      rw [Function.update_of_ne hib]
      show Chain link (link (.head i)) (chains i)
      rw [hhead]
      refine (h.chain i hi).congr fun b hb => hframe _ (fun heq => nomatch heq) ?_
      intro c hc heq
      exact hib (h.bucket_unique hi h.and_lt hb (SinglyLinked.Slot.next.inj heq ▸ hc))
  case alloc =>
    exact fun i hi b hb => h.alloc i hi b (hmem i hi b hb).1
  case bucket =>
    exact fun i hi b hb => h.bucket i hi b (hmem i hi b hb).1
  case keys =>
    intro i hi
    by_cases hib : i = k &&& t.tblMax
    · subst hib
      have hkeys := h.keys _ hi
      rw [hsplit] at hkeys
      rw [Function.update_self]
      exact hkeys.sublist (hsub.map _)
    · rw [Function.update_of_ne hib]
      exact h.keys i hi
  case items =>
    have hsum := sum_length_update chains (pre ++ post) (h.and_lt (k := k))
    have hlength : (chains (k &&& t.tblMax)).length = (pre ++ post).length + 1 := by
      rw [hsplit]
      simp only [List.length_append, List.length_cons]
      omega
    rw [← h.items] at hsum
    show t.tblItems - 1 = ∑ i ∈ Finset.range t.arySize, _
    omega
  case holds =>
    intro i hi b hb
    obtain ⟨hbold, hne⟩ := hmem i hi b hb
    rw [Function.update_of_ne hne]
    exact h.holds i hi b hbold
  case complete =>
    intro k' v hm
    have hne : k' ≠ k := by
      rintro rfl
      rw [Function.update_self] at hm
      cases hm
    rw [Function.update_of_ne hne] at hm
    obtain ⟨b, hb, hbkey⟩ := h.complete k' v hm
    refine ⟨b, ?_, hbkey⟩
    show b ∈ Function.update chains (k &&& t.tblMax) _ (k' &&& t.tblMax)
    by_cases hib : k' &&& t.tblMax = k &&& t.tblMax
    · rw [hib, hsplit] at hb
      rw [hib, Function.update_self]
      rcases List.mem_append.mp hb with hb | hb
      · exact List.mem_append_left _ hb
      · rcases List.mem_cons.mp hb with rfl | hb
        · exact absurd (hbkey.symm.trans hkey) hne
        · exact List.mem_append_right _ hb
    · rw [Function.update_of_ne hib]
      exact hb

/-- A delete forgets its key, and drops the reference on the value that it had. -/
theorem delete : ∃ t' chains', t.delete k = some (t', (m k).join) ∧
    t'.Layout chains' (Function.update m k none) := by
  have hs : ∀ b ∈ chains (k &&& t.tblMax), t.bucket k ≠ .next b := fun b _ heq => nomatch heq
  rcases seek_unlink (fun a => (t.ent a).oldval = k) (h.chain _ (h.and_lt (k := k)))
      (h.chain_nodup h.and_lt) hs (h.chain_length h.and_lt) with
    ⟨hnone, hseek⟩ | ⟨pre, a, post, oentry, hsplit, hfound, -, hseek, hchain, hframe⟩
  · have hm : m k = none := by
      refine h.eq_none_of_find (List.find?_eq_none.mpr fun b hb => ?_)
      simpa using hnone b hb
    refine ⟨t, chains, ?_, ?_⟩
    · rw [PtrTbl.delete, PtrTbl.bucket, hseek, hm]
      rfl
    · rw [Function.update_eq_self_iff.mpr hm.symm]
      exact h
  · have hkey : (t.ent a).oldval = k := by simpa using hfound
    have ha : a ∈ chains (k &&& t.tblMax) := by
      rw [hsplit]
      exact List.mem_append_right _ List.mem_cons_self
    have hm : m k = some (t.ent a).newval := hkey ▸ h.holds _ h.and_lt a ha
    refine ⟨_, _, ?_, h.unlink hsplit hkey hchain fun u hu hnext => write_of_ne ?_⟩
    · rw [PtrTbl.delete, PtrTbl.bucket, hseek, hm]
      rfl
    · exact hframe u hu hnext

end Layout

end PtrTbl

namespace SvptrOp

/-- A store or a delete changes the map as it says. -/
theorem apply_layout {t : PtrTbl} {chains : ℕ → List ℕ} {m : ℕ → Option SvPtr}
    (h : t.Layout chains m) (op : SvptrOp) :
    ∃ t' chains', op.apply t = some t' ∧ t'.Layout chains' (op.record m) := by
  cases op with
  | store key val => exact h.store
  | delete key =>
      obtain ⟨t', chains', hdelete, hlayout⟩ := h.delete (k := key)
      exact ⟨t', chains', by rw [apply, hdelete]; rfl, hlayout⟩

theorem foldlM_layout (ops : List SvptrOp) {t : PtrTbl} {chains : ℕ → List ℕ}
    {m : ℕ → Option SvPtr} (h : t.Layout chains m) :
    ∃ t' chains', ops.foldlM apply t = some t' ∧
      t'.Layout chains' (ops.foldl record m) := by
  induction ops generalizing t chains m with
  | nil => exact ⟨t, chains, rfl, h⟩
  | cons op ops ih =>
      obtain ⟨t₁, chains₁, happly, hlayout⟩ := apply_layout h op
      obtain ⟨t', chains', hrun, hend⟩ := ih hlayout
      refine ⟨t', chains', ?_, hend⟩
      rw [List.foldlM_cons, happly]
      exact hrun

end SvptrOp

/-- The pointer table is a finite map: after any stores and deletes, each list of the array
holds the entries of its keys, each key is in one entry, and a fetch finds the value last
stored and not deleted since. -/
theorem svptr_table_is_map (ops : List SvptrOp) :
    ∃ t chains, ops.foldlM SvptrOp.apply .new = some t ∧
      t.Layout chains (ops.foldl SvptrOp.record fun _ => none) ∧
      (∀ i < t.arySize, ∀ j < t.arySize, ∀ a ∈ chains i, ∀ b ∈ chains j,
        (t.ent a).oldval = (t.ent b).oldval → a = b) ∧
      ∀ k, t.fetch k = some (ops.foldl SvptrOp.record (fun _ => none) k).join := by
  obtain ⟨t, chains, hrun, hlayout⟩ := SvptrOp.foldlM_layout ops PtrTbl.layout_new
  refine ⟨t, chains, hrun, hlayout, ?_, fun k => hlayout.fetch_eq⟩
  exact fun i hi j hj a ha b hb => hlayout.key_unique hi hj ha hb

example : ([.store 3 (some 7), .store 515 (some 8), .delete 3].foldlM SvptrOp.apply .new).bind
    (fun t => t.fetch 515) = some (some 8) := by
  decide +kernel

end ModPerl
