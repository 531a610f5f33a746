import Mathlib.Data.List.Nodup
import Mathlib.Data.List.Pairwise
/-!
# Forests

A finite forest of labelled trees and the order in which a stack visits it: a
node, then its subtrees from the last child to the first. When the labels are
distinct a node is given by its label, and the order obeys an equation between
labels (`order_eq`).
-/

namespace AsyncRuntime.Lib
variable {α : Type}

inductive RoseTree (α : Type) where
  | node (label : α) (children : List (RoseTree α))

def RoseTree.label : RoseTree α → α
  | .node x _ => x

def RoseTree.children : RoseTree α → List (RoseTree α)
  | .node _ ts => ts

mutual
/-- A tree and all trees below it. -/
def RoseTree.subtrees : RoseTree α → List (RoseTree α)
  | .node x ts => .node x ts :: subtrees ts
/-- All trees of a forest. -/
def subtrees : List (RoseTree α) → List (RoseTree α)
  | [] => []
  | t :: ts => t.subtrees ++ subtrees ts
end

mutual
/-- The root, then the visits of the children from the last one to the first. -/
def RoseTree.visit : RoseTree α → List α
  | .node x ts => x :: visitRev ts
/-- The visits of some trees, the last tree first. -/
def visitRev : List (RoseTree α) → List α
  | [] => []
  | t :: ts => visitRev ts ++ t.visit
end

/-- The visits of the trees of a forest, one after the other. -/
def visits (F : List (RoseTree α)) : List α := F.flatMap RoseTree.visit

def roots (F : List (RoseTree α)) : List α := F.map RoseTree.label

/-- The labels of all nodes. -/
def labels (F : List (RoseTree α)) : List α := (subtrees F).map RoseTree.label

section Lookup
variable [DecidableEq α]

/-- The tree whose root has the label `x`. -/
def lookup (F : List (RoseTree α)) (x : α) : Option (RoseTree α) := (subtrees F).find? fun t => decide (t.label = x)

/-- The labels of the children of `x`, in order. -/
def kids (F : List (RoseTree α)) (x : α) : List α := (lookup F x).elim [] fun t => t.children.map RoseTree.label

/-- The visit of the tree of `x`. -/
def order (F : List (RoseTree α)) (x : α) : List α := (lookup F x).elim [] RoseTree.visit

end Lookup

/-! ## Subtrees -/

theorem mem_subtrees_self (t : RoseTree α) : t ∈ t.subtrees := by
  cases t with
  | node x ts => simp [RoseTree.subtrees]

theorem mem_subtrees_of_mem {t : RoseTree α} {ts : List (RoseTree α)} (h : t ∈ ts) : t ∈ subtrees ts := by
  induction ts with
  | nil => cases h
  | cons u us ih =>
    rw [subtrees, List.mem_append]
    rcases List.mem_cons.1 h with rfl | h
    · exact .inl (mem_subtrees_self _)
    · exact .inr (ih h)

mutual
theorem RoseTree.child_mem_subtrees :
    ∀ (u : RoseTree α) {t c : RoseTree α}, t ∈ u.subtrees → c ∈ t.children → c ∈ u.subtrees
  | .node x ts, t, c, ht, hc => by
    simp only [RoseTree.subtrees, List.mem_cons] at ht ⊢
    rcases ht with rfl | ht
    · exact .inr (mem_subtrees_of_mem hc)
    · exact .inr (child_mem_subtrees ts ht hc)
/-- A child of a tree of the forest is a tree of the forest. -/
theorem child_mem_subtrees :
    ∀ (F : List (RoseTree α)) {t c : RoseTree α}, t ∈ subtrees F → c ∈ t.children → c ∈ subtrees F
  | [], t, c, ht, _ => by cases ht
  | u :: us, t, c, ht, hc => by
    simp only [subtrees, List.mem_append] at ht ⊢
    exact ht.imp (fun ht => u.child_mem_subtrees ht hc) (fun ht => child_mem_subtrees us ht hc)
end

/-- The labels of the children of a tree. -/
def RoseTree.kids (t : RoseTree α) : List α := t.children.map RoseTree.label

mutual
theorem RoseTree.labels_perm : ∀ t : RoseTree α,
    List.Perm (t.subtrees.map RoseTree.label) (t.label :: t.subtrees.flatMap RoseTree.kids)
  | .node x ts => by
    simp only [RoseTree.subtrees, List.map_cons, List.flatMap_cons, RoseTree.label]
    exact (labels_perm ts).cons x
/-- Every label is that of a root or that of a child. -/
theorem labels_perm : ∀ F : List (RoseTree α), List.Perm (labels F) (roots F ++ (subtrees F).flatMap RoseTree.kids)
  | [] => List.Perm.nil
  | t :: ts => by
    have ht := t.labels_perm
    have hts := labels_perm ts
    simp only [labels, roots, subtrees, List.map_append, List.map_cons, List.flatMap_append, List.cons_append] at hts ⊢
    refine (ht.append hts).trans ?_
    rw [List.cons_append]
    refine List.Perm.cons _ ?_
    rw [← List.append_assoc, ← List.append_assoc]
    exact List.Perm.append_right _ List.perm_append_comm
end

theorem visitRev_eq {ts : List (RoseTree α)} (f : α → List α) (h : ∀ t ∈ ts, t.visit = f t.label) :
    visitRev ts = (ts.map RoseTree.label).reverse.flatMap f := by
  induction ts with
  | nil => rfl
  | cons t ts ih =>
    rw [visitRev, ih fun u hu => h u (List.mem_cons_of_mem _ hu), h t List.mem_cons_self]
    simp

theorem roots_subset_labels {F : List (RoseTree α)} {x : α} (hx : x ∈ roots F) : x ∈ labels F := by
  obtain ⟨t, ht, rfl⟩ := List.mem_map.1 hx
  exact List.mem_map.2 ⟨t, mem_subtrees_of_mem ht, rfl⟩

theorem roots_nodup {F : List (RoseTree α)} (hF : (labels F).Nodup) : (roots F).Nodup :=
  (List.nodup_append.1 ((labels_perm F).nodup_iff.1 hF)).1

/-! ## Distinct labels -/

section Distinct
variable [DecidableEq α] {F : List (RoseTree α)} {x y z : α}

theorem mem_of_lookup {t : RoseTree α} (h : lookup F x = some t) : t ∈ subtrees F ∧ t.label = x := by
  unfold lookup at h
  exact ⟨List.mem_of_find?_eq_some h, by simpa using List.find?_some h⟩

theorem lookup_eq (hF : (labels F).Nodup) {t : RoseTree α} (ht : t ∈ subtrees F) : lookup F t.label = some t := by
  have hsome : (lookup F t.label).isSome = true := by
    rw [lookup, List.find?_isSome]
    exact ⟨t, ht, by simp⟩
  obtain ⟨u, hu⟩ := Option.isSome_iff_exists.1 hsome
  obtain ⟨hmem, hlabel⟩ := mem_of_lookup hu
  rw [hu, List.inj_on_of_nodup_map hF hmem ht hlabel]

theorem exists_lookup (hF : (labels F).Nodup) (hx : x ∈ labels F) : ∃ t, lookup F x = some t := by
  obtain ⟨t, ht, rfl⟩ := List.mem_map.1 hx
  exact ⟨t, lookup_eq hF ht⟩

theorem mem_kids_iff : z ∈ kids F x ↔ ∃ t, lookup F x = some t ∧ z ∈ t.kids := by
  unfold kids
  cases lookup F x with
  | none => simp
  | some t => simp [RoseTree.kids]

theorem order_label (hF : (labels F).Nodup) {t : RoseTree α} (ht : t ∈ subtrees F) : order F t.label = t.visit := by
  simp [order, lookup_eq hF ht]

/-- The order of a node: itself, then its children from the last to the first. -/
theorem order_eq (hF : (labels F).Nodup) (hx : x ∈ labels F) :
    order F x = x :: (kids F x).reverse.flatMap (order F) := by
  obtain ⟨t, ht⟩ := exists_lookup hF hx
  obtain ⟨hmem, rfl⟩ := mem_of_lookup ht
  rw [order_label hF hmem, kids, ht]
  cases t with
  | node x ts =>
    have hkids : ∀ c ∈ ts, c.visit = order F c.label := fun c hc =>
      (order_label hF (child_mem_subtrees F hmem hc)).symm
    rw [RoseTree.visit, visitRev_eq (order F) hkids]
    rfl

theorem visits_eq (hF : (labels F).Nodup) : visits F = (roots F).flatMap (order F) := by
  simp only [visits, roots, List.flatMap_map]
  exact List.flatMap_congr fun t ht => (order_label hF (mem_subtrees_of_mem ht)).symm

theorem kids_subset_labels (hz : z ∈ kids F x) : z ∈ labels F := by
  obtain ⟨t, ht, hz⟩ := mem_kids_iff.1 hz
  obtain ⟨c, hc, rfl⟩ := List.mem_map.1 hz
  exact List.mem_map.2 ⟨c, child_mem_subtrees F (mem_of_lookup ht).1 hc, rfl⟩

theorem kids_nodup (hF : (labels F).Nodup) (x : α) : (kids F x).Nodup := by
  unfold kids
  cases ht : lookup F x with
  | none => exact List.nodup_nil
  | some t =>
    have hnodup := (List.nodup_append.1 ((labels_perm F).nodup_iff.1 hF)).2.1
    exact (List.nodup_flatMap.1 hnodup).1 t (mem_of_lookup ht).1

/-- A node has one parent. -/
theorem parent_unique (hF : (labels F).Nodup) (hx : z ∈ kids F x) (hy : z ∈ kids F y) : x = y := by
  obtain ⟨t, ht, hzt⟩ := mem_kids_iff.1 hx
  obtain ⟨u, hu, hzu⟩ := mem_kids_iff.1 hy
  obtain ⟨htm, rfl⟩ := mem_of_lookup ht
  obtain ⟨hum, rfl⟩ := mem_of_lookup hu
  by_contra hne
  have hnodup := (List.nodup_append.1 ((labels_perm F).nodup_iff.1 hF)).2.1
  have hdisj := (List.nodup_flatMap.1 hnodup).2
  have hsymm : Std.Symm (Function.onFun List.Disjoint (RoseTree.kids (α := α))) := ⟨fun _ _ h _ ha hb => h hb ha⟩
  have hne' : t ≠ u := fun e => hne (by rw [e])
  exact hdisj.forall htm hum hne' hzt hzu

end Distinct

end AsyncRuntime.Lib
