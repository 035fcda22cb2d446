import Mathlib.Data.List.Perm.Basic
import Mathlib.Data.List.Nodup
import Mathlib.Data.List.Flatten

/-!
# Forests of labelled nodes

A forest is kept as a program keeps it: each node has its first child and its next
sibling.  The labels are listed with what is below a node in front of the node,
which is the order in which a forest is taken down.

Nodes are found by a key of their labels.  A tree can be detached from its forest,
and the label and the children of a node can be replaced where they stand; up to
order, the labels are then those detached, or replaced, and the rest
(`detach_perm`, `modify_perm`).  As long as no key repeats, what is below a node is
what has this node above it (`above_of_mem_below`), and taking trees away or putting
leaves in does not change what is above the other nodes.
-/

/-- A first tree, by its root and its children, and the trees beside it. -/
inductive Forest (α : Type*)
  | nil
  | node (label : α) (child sibling : Forest α)

namespace Forest

variable {α κ : Type*}

/-- The labels, children in front of their parent. -/
def labels : Forest α → List α
  | nil => []
  | node a child sibling => child.labels ++ a :: sibling.labels

@[simp] theorem labels_nil : (nil : Forest α).labels = [] := rfl

@[simp] theorem labels_node (a : α) (child sibling : Forest α) :
    (node a child sibling).labels = child.labels ++ a :: sibling.labels := rfl

/-- The keys, in the order of the labels. -/
def keys (key : α → κ) (f : Forest α) : List κ := f.labels.map key

@[simp] theorem keys_nil (key : α → κ) : (nil : Forest α).keys key = [] := rfl

@[simp] theorem keys_node (key : α → κ) (a : α) (child sibling : Forest α) :
    (node a child sibling).keys key = child.keys key ++ key a :: sibling.keys key := by
  simp [keys]

theorem ne_of_mem_keys {key : α → κ} {k : κ} {f : Forest α} {a : α} (ha : key a ∉ f.keys key)
    (hk : k ∈ f.keys key) : key a ≠ k :=
  fun heq => ha (heq ▸ hk)

variable [DecidableEq κ] (key : α → κ) (k : κ)

/-- A tree taken out of a forest: the label of its root, what was below, and the
forest without the tree. -/
structure Detached (α : Type*) where
  label : α
  below : Forest α
  rest : Forest α

/-- Take out the tree whose root has the key. -/
def detach : Forest α → Option (Detached α)
  | nil => none
  | node a child sibling =>
      if key a = k then some ⟨a, child, sibling⟩
      else
        match child.detach with
        | some d => some ⟨d.label, d.below, node a d.rest sibling⟩
        | none => sibling.detach.map fun d => ⟨d.label, d.below, node a child d.rest⟩

/-- Replace the label and the children of the node with the key. -/
def modify (g : α → Forest α → α × Forest α) : Forest α → Forest α
  | nil => nil
  | node a child sibling =>
      if key a = k then node (g a child).1 (g a child).2 sibling
      else if k ∈ child.keys key then node a (child.modify g) sibling
      else node a child (sibling.modify g)

/-- The keys above the node with the key, the nearest first. -/
def above : Forest α → Option (List κ)
  | nil => none
  | node a child sibling =>
      if key a = k then some []
      else
        match child.above with
        | some path => some (path ++ [key a])
        | none => sibling.above

variable {key k} {f : Forest α} {d : Detached α} {j : κ}

/-! ## Detaching -/

theorem detach_eq_none : f.detach key k = none ↔ k ∉ f.keys key := by
  induction f with
  | nil => simp [detach]
  | node a child sibling ihc ihs =>
      rw [detach, keys_node, List.mem_append, List.mem_cons, not_or, not_or, ← ihc, ← ihs]
      by_cases ha : key a = k
      · simp [ha]
      · rw [if_neg ha]
        cases hc : child.detach key k with
        | some d => simp
        | none => simp [Ne.symm ha]

theorem exists_detach (h : k ∈ f.keys key) : ∃ d, f.detach key k = some d :=
  Option.ne_none_iff_exists'.mp fun hnone => detach_eq_none.mp hnone h

/-- The three ways a tree is found. -/
theorem detach_node {a : α} {child sibling : Forest α}
    (h : (node a child sibling).detach key k = some d) :
    (key a = k ∧ d = ⟨a, child, sibling⟩) ∨
    (key a ≠ k ∧ ∃ d', child.detach key k = some d' ∧
      d = ⟨d'.label, d'.below, node a d'.rest sibling⟩) ∨
    (key a ≠ k ∧ k ∉ child.keys key ∧ ∃ d', sibling.detach key k = some d' ∧
      d = ⟨d'.label, d'.below, node a child d'.rest⟩) := by
  rw [detach] at h
  by_cases ha : key a = k
  · rw [if_pos ha, Option.some_inj] at h
    exact .inl ⟨ha, h.symm⟩
  · rw [if_neg ha] at h
    cases hc : child.detach key k with
    | some d' =>
        rw [hc, Option.some_inj] at h
        exact .inr (.inl ⟨ha, d', rfl, h.symm⟩)
    | none =>
        rw [hc] at h
        obtain ⟨d', hd', hd⟩ := Option.map_eq_some_iff.mp h
        exact .inr (.inr ⟨ha, detach_eq_none.mp hc, d', hd', hd.symm⟩)

theorem detach_key (h : f.detach key k = some d) : key d.label = k := by
  induction f generalizing d with
  | nil => cases h
  | node a child sibling ihc ihs =>
      rcases detach_node h with ⟨ha, rfl⟩ | ⟨-, d', hd', rfl⟩ | ⟨-, -, d', hd', rfl⟩
      · exact ha
      · exact ihc (d := d') hd'
      · exact ihs (d := d') hd'

/-- The labels of the tree, and the others. -/
theorem detach_perm (h : f.detach key k = some d) :
    f.labels.Perm ((d.below.labels ++ [d.label]) ++ d.rest.labels) := by
  induction f generalizing d with
  | nil => cases h
  | node a child sibling ihc ihs =>
      rcases detach_node h with ⟨-, rfl⟩ | ⟨-, d', hd', rfl⟩ | ⟨-, -, d', hd', rfl⟩
      · simp
      · have hchild := (ihc (d := d') hd').append_right (a :: sibling.labels)
        simpa [List.append_assoc] using hchild
      · calc child.labels ++ a :: sibling.labels
            = (child.labels ++ [a]) ++ sibling.labels := by simp
          _ |>.Perm ((child.labels ++ [a]) ++
                ((d'.below.labels ++ [d'.label]) ++ d'.rest.labels)) :=
              (ihs (d := d') hd').append_left _
          _ |>.Perm ((d'.below.labels ++ [d'.label]) ++
                ((child.labels ++ [a]) ++ d'.rest.labels)) :=
              List.perm_append_comm_assoc ..
          _ = (d'.below.labels ++ [d'.label]) ++ (node a child d'.rest).labels := by simp

/-- The keys of the tree, and the others. -/
theorem detach_keys (h : f.detach key k = some d) :
    (f.keys key).Perm ((d.below.keys key ++ [k]) ++ d.rest.keys key) := by
  have hperm := (detach_perm h).map key
  simpa [keys, detach_key h] using hperm

/-! ## Replacing -/

/-- The labels of what the node and its children were replaced by, and those outside
the tree. -/
theorem modify_perm {g : α → Forest α → α × Forest α} (h : f.detach key k = some d) :
    (f.modify key k g).labels.Perm
      (((g d.label d.below).2.labels ++ [(g d.label d.below).1]) ++ d.rest.labels) := by
  induction f generalizing d with
  | nil => cases h
  | node a child sibling ihc ihs =>
      rcases detach_node h with ⟨ha, rfl⟩ | ⟨ha, d', hd', rfl⟩ | ⟨ha, hnot, d', hd', rfl⟩
      · simp [modify, ha]
      · have hmem : k ∈ child.keys key := by
          by_contra hnot
          rw [detach_eq_none.mpr hnot] at hd'
          cases hd'
        rw [modify, if_neg ha, if_pos hmem]
        have hchild := (ihc (d := d') hd').append_right (a :: sibling.labels)
        simpa [List.append_assoc] using hchild
      · rw [modify, if_neg ha, if_neg hnot]
        set new := (g d'.label d'.below).2.labels ++ [(g d'.label d'.below).1]
        calc (node a child (sibling.modify key k g)).labels
            = (child.labels ++ [a]) ++ (sibling.modify key k g).labels := by simp
          _ |>.Perm ((child.labels ++ [a]) ++ (new ++ d'.rest.labels)) :=
              (ihs (d := d') hd').append_left _
          _ |>.Perm (new ++ ((child.labels ++ [a]) ++ d'.rest.labels)) :=
              List.perm_append_comm_assoc ..
          _ = new ++ (node a child d'.rest).labels := by simp

/-! ## What is above a node -/

theorem above_eq_none : f.above key k = none ↔ k ∉ f.keys key := by
  induction f with
  | nil => simp [above]
  | node a child sibling ihc ihs =>
      rw [above, keys_node, List.mem_append, List.mem_cons, not_or, not_or, ← ihc, ← ihs]
      by_cases ha : key a = k
      · simp [ha]
      · rw [if_neg ha]
        cases hc : child.above key k with
        | some path => simp
        | none => simp [Ne.symm ha]

theorem exists_above (h : k ∈ f.keys key) : ∃ path, f.above key k = some path :=
  Option.ne_none_iff_exists'.mp fun hnone => above_eq_none.mp hnone h

theorem mem_keys_of_above {path : List κ} (h : f.above key k = some path) (hj : j ∈ path) :
    j ∈ f.keys key := by
  induction f generalizing path with
  | nil => cases h
  | node a child sibling ihc ihs =>
      rw [above] at h
      rw [keys_node, List.mem_append, List.mem_cons]
      split_ifs at h with ha
      · obtain rfl := Option.some.inj h
        cases hj
      · cases hc : child.above key k with
        | some path' =>
            rw [hc, Option.some_inj] at h
            rw [← h, List.mem_append, List.mem_singleton] at hj
            exact hj.imp (ihc hc) .inl
        | none =>
            rw [hc] at h
            exact .inr (.inr (ihs h hj))

theorem above_node_self {a : α} {child sibling : Forest α} (ha : key a = k) :
    (node a child sibling).above key k = some [] := by
  rw [above, if_pos ha]

theorem above_node_child {a : α} {child sibling : Forest α} (ha : key a ≠ k)
    (hk : k ∈ child.keys key) :
    (node a child sibling).above key k = (child.above key k).map (· ++ [key a]) := by
  obtain ⟨path, hpath⟩ := exists_above hk
  rw [above, if_neg ha, hpath, Option.map_some]

theorem above_node_sibling {a : α} {child sibling : Forest α} (ha : key a ≠ k)
    (hk : k ∉ child.keys key) :
    (node a child sibling).above key k = sibling.above key k := by
  rw [above, if_neg ha, above_eq_none.mpr hk]

omit [DecidableEq κ] in
/-- No key of a node repeats: that of the root, those below, and those beside. -/
theorem nodup_node {a : α} {child sibling : Forest α}
    (h : ((node a child sibling).keys key).Nodup) :
    (child.keys key).Nodup ∧ (sibling.keys key).Nodup ∧ key a ∉ child.keys key ∧
      key a ∉ sibling.keys key ∧ ∀ k ∈ sibling.keys key, k ∉ child.keys key := by
  rw [keys_node, List.nodup_append] at h
  obtain ⟨hchild, hrest, hdisjoint⟩ := h
  rw [List.nodup_cons] at hrest
  refine ⟨hchild, hrest.2, fun hmem => ?_, hrest.1, fun k hk hmem => ?_⟩
  · exact hdisjoint _ hmem _ List.mem_cons_self rfl
  · exact hdisjoint _ hmem _ (List.mem_cons_of_mem _ hk) rfl

theorem mem_keys_of_below (h : f.detach key k = some d) (hj : j ∈ d.below.keys key) :
    j ∈ f.keys key := by
  rw [(detach_keys h).mem_iff]
  simp [hj]

theorem mem_keys_of_rest (h : f.detach key k = some d) (hj : j ∈ d.rest.keys key) :
    j ∈ f.keys key := by
  rw [(detach_keys h).mem_iff]
  simp [hj]

/-- What is below a node has the node above it. -/
theorem above_of_mem_below (hnodup : (f.keys key).Nodup) (h : f.detach key k = some d)
    (hj : j ∈ d.below.keys key) : ∃ path, f.above key j = some path ∧ k ∈ path := by
  induction f generalizing d with
  | nil => cases h
  | node a child sibling ihc ihs =>
      obtain ⟨hchild, hsibling, hac, has, hdisjoint⟩ := nodup_node hnodup
      rcases detach_node h with ⟨ha, rfl⟩ | ⟨ha, d', hd', rfl⟩ | ⟨ha, hnot, d', hd', rfl⟩
      · obtain ⟨path, hpath⟩ := exists_above hj
        refine ⟨path ++ [key a], ?_, by simp [ha]⟩
        rw [above_node_child (ne_of_mem_keys hac hj) hj, hpath, Option.map_some]
      · have hmem : j ∈ child.keys key := mem_keys_of_below hd' hj
        obtain ⟨path, hpath, hk⟩ := ihc (d := d') hchild hd' hj
        refine ⟨path ++ [key a], ?_, List.mem_append_left _ hk⟩
        rw [above_node_child (ne_of_mem_keys hac hmem) hmem, hpath, Option.map_some]
      · have hmem : j ∈ sibling.keys key := mem_keys_of_below hd' hj
        obtain ⟨path, hpath, hk⟩ := ihs (d := d') hsibling hd' hj
        refine ⟨path, ?_, hk⟩
        rw [above_node_sibling (ne_of_mem_keys has hmem) (hdisjoint j hmem), hpath]

/-- Outside of a tree that is taken out nothing changes above a node. -/
theorem above_rest (hnodup : (f.keys key).Nodup) (h : f.detach key k = some d)
    (hj : j ∈ d.rest.keys key) : d.rest.above key j = f.above key j := by
  induction f generalizing d with
  | nil => cases h
  | node a child sibling ihc ihs =>
      obtain ⟨hchild, hsibling, hac, has, hdisjoint⟩ := nodup_node hnodup
      rcases detach_node h with ⟨ha, rfl⟩ | ⟨ha, d', hd', rfl⟩ | ⟨ha, hnot, d', hd', rfl⟩
      · exact (above_node_sibling (ne_of_mem_keys has hj) (hdisjoint j hj)).symm
      · by_cases haj : key a = j
        · rw [above_node_self haj, above_node_self haj]
        · by_cases hrest : j ∈ d'.rest.keys key
          · rw [above_node_child haj hrest, above_node_child haj (mem_keys_of_rest hd' hrest),
              ihc (d := d') hchild hd' hrest]
          · have hmem : j ∈ sibling.keys key := by
              simpa [hrest, Ne.symm haj] using hj
            rw [above_node_sibling haj hrest, above_node_sibling haj (hdisjoint j hmem)]
      · by_cases haj : key a = j
        · rw [above_node_self haj, above_node_self haj]
        · by_cases hmem : j ∈ child.keys key
          · rw [above_node_child haj hmem, above_node_child haj hmem]
          · have hrest : j ∈ d'.rest.keys key := by
              simpa [hmem, Ne.symm haj] using hj
            rw [above_node_sibling haj hmem, above_node_sibling haj hmem,
              ihs (d := d') hsibling hd' hrest]

/-- Nothing changes above a node if another one gets a label with its key, or children
that change nothing there. -/
theorem above_modify (relabel : α → α) (extra : Forest α → Forest α)
    (hkey : ∀ a, key (relabel a) = key a)
    (hextra : ∀ child : Forest α, (extra child).above key j = child.above key j) :
    (f.modify key k fun a child => (relabel a, extra child)).above key j = f.above key j := by
  induction f with
  | nil => rfl
  | node a child sibling ihc ihs =>
      unfold modify
      split_ifs
      · simp only [above, hkey, hextra]
      · rw [above, above, ihc]
      · rw [above, above, ihs]

/-- A leaf put under a node has the node, and all above it, above itself. -/
theorem above_modify_leaf (a₀ : α) (hnew : key a₀ ∉ f.keys key) {path : List κ}
    (hpath : f.above key k = some path) :
    (f.modify key k fun a child => (a, node a₀ nil child)).above key (key a₀) =
      some (k :: path) := by
  induction f generalizing path with
  | nil => cases hpath
  | node a child sibling ihc ihs =>
      rw [keys_node, List.mem_append, List.mem_cons, not_or, not_or] at hnew
      obtain ⟨hchild, hne, hsibling⟩ := hnew
      rw [above] at hpath
      unfold modify
      by_cases ha : key a = k
      · rw [if_pos ha, Option.some_inj] at hpath
        rw [if_pos ha, above, if_neg (Ne.symm hne), above_node_self rfl, ← hpath, ha]
        rfl
      · rw [if_neg ha] at hpath ⊢
        cases hc : child.above key k with
        | some path' =>
            have hmem : k ∈ child.keys key := by
              by_contra hnot
              rw [above_eq_none.mpr hnot] at hc
              cases hc
            rw [hc, Option.some_inj] at hpath
            rw [if_pos hmem, above, if_neg (Ne.symm hne), ihc hchild hc, ← hpath]
            rfl
        | none =>
            rw [hc] at hpath
            rw [if_neg (above_eq_none.mp hc), above, if_neg (Ne.symm hne),
              above_eq_none.mpr hchild]
            exact ihs hsibling hpath

end Forest
