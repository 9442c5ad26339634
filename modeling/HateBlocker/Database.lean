-- The children of a path in the database, the events that change them, and what
-- Firebase tells its observers about each event.
import HateBlocker.FirebaseManager

open Json

namespace HateBlocker

/-- The children under a path, in the order of their latest `childAdded`. A key stands for one
child. -/
structure Children (Key : Type) where
  entries : List (Key × Value)
  distinct : (entries.map Prod.fst).Nodup

/-- What happens to a child. -/
inductive ChildEvent (Key : Type)
  | added (key : Key) (value : Value)
  | changed (key : Key) (value : Value)
  | removed (key : Key)

/-- What Firebase tells its observers: the event, and the value of the snapshot. -/
structure Notice where
  event : DataEventType
  value : Value

namespace Children

variable {Key : Type}

def empty : Children Key := ⟨[], List.nodup_nil⟩

def keys (c : Children Key) : List Key := c.entries.map Prod.fst

/-- The posts of the entries that decode, in order. -/
def postsOf (entries : List (Key × Value)) : List Post :=
  entries.filterMap (fun child => Post.decode? child.2)

def posts (c : Children Key) : List Post := postsOf c.entries

def add (c : Children Key) (key : Key) (value : Value) (h : key ∉ c.keys) : Children Key where
  entries := c.entries ++ [(key, value)]
  distinct := by
    rw [List.map_append, List.nodup_append]
    refine ⟨c.distinct, by simp, ?_⟩
    intro k hk k' hk' heq
    obtain rfl : k' = key := by simpa using hk'
    exact h (heq ▸ hk)

@[simp] theorem postsOf_append (l r : List (Key × Value)) :
    postsOf (l ++ r) = postsOf l ++ postsOf r := by
  simp [postsOf]

@[simp] theorem postsOf_cons (child : Key × Value) (l : List (Key × Value)) :
    postsOf (child :: l) = (Post.decode? child.2).toList ++ postsOf l := by
  simp only [postsOf, List.filterMap_cons]
  split
  · rename_i hd
    simp [hd]
  · rename_i post hd
    simp [hd]

@[simp] theorem posts_empty : (empty : Children Key).posts = [] := rfl

theorem posts_add (c : Children Key) {key : Key} (value : Value) (h : key ∉ c.keys) :
    (c.add key value h).posts = c.posts ++ (Post.decode? value).toList := by
  rw [posts, add, postsOf_append, postsOf_cons]
  simp [posts, postsOf]

variable [DecidableEq Key]

def value? (c : Children Key) (key : Key) : Option Value := c.entries.lookup key

def change (c : Children Key) (key : Key) (value : Value) : Children Key where
  entries := c.entries.map (fun child => if child.1 = key then (key, value) else child)
  distinct := by
    have hkeys : (c.entries.map (fun child => if child.1 = key then (key, value) else child)).map
        Prod.fst = c.entries.map Prod.fst := by
      rw [List.map_map]
      apply List.map_congr_left
      intro child _
      simp only [Function.comp]
      split
      · rename_i heq
        exact heq.symm
      · rfl
    rw [hkeys]
    exact c.distinct

def remove (c : Children Key) (key : Key) : Children Key where
  entries := c.entries.filter (fun child => child.1 ≠ key)
  distinct := c.distinct.sublist (List.filter_sublist.map Prod.fst)

/-- The children after an event and the notice that goes out, when the event can happen: a key is
added while it is absent, and changed or removed while it is present. A removal carries the last
value. -/
def apply (c : Children Key) : ChildEvent Key → Option (Children Key × Notice)
  | .added key value =>
    if h : key ∈ c.keys then none else some (c.add key value h, ⟨.childAdded, value⟩)
  | .changed key value =>
    match c.value? key with
    | some _ => some (c.change key value, ⟨.childChanged, value⟩)
    | none => none
  | .removed key =>
    match c.value? key with
    | some last => some (c.remove key, ⟨.childRemoved, last⟩)
    | none => none

/-! ## What an event changes -/

/-- A child that is there, among the others. -/
theorem split_of_value? {c : Children Key} {key : Key} {old : Value}
    (h : c.value? key = some old) :
    ∃ before after, c.entries = before ++ (key, old) :: after ∧
      (∀ child ∈ before, child.1 ≠ key) ∧ ∀ child ∈ after, child.1 ≠ key := by
  obtain ⟨before, after, heq, hbefore⟩ := List.lookup_eq_some_iff.mp h
  refine ⟨before, after, heq, ?_, ?_⟩
  · intro child hchild
    have hne := hbefore child hchild
    simpa using Ne.symm (by simpa using hne)
  · intro child hchild hkey
    have hd := c.distinct
    rw [heq, List.map_append, List.map_cons, List.nodup_append, List.nodup_cons] at hd
    exact hd.2.1.1 (List.mem_map.mpr ⟨child, hchild, hkey⟩)

theorem change_entries {c : Children Key} {key : Key} {old value : Value}
    {before after : List (Key × Value)} (heq : c.entries = before ++ (key, old) :: after)
    (hbefore : ∀ child ∈ before, child.1 ≠ key) (hafter : ∀ child ∈ after, child.1 ≠ key) :
    (c.change key value).entries = before ++ (key, value) :: after := by
  have hsame : ∀ l : List (Key × Value), (∀ child ∈ l, child.1 ≠ key) →
      l.map (fun child => if child.1 = key then (key, value) else child) = l := by
    intro l hl
    conv_rhs => rw [← List.map_id l]
    apply List.map_congr_left
    intro child hchild
    simp [hl child hchild]
  simp [change, heq, hsame before hbefore, hsame after hafter]

theorem remove_entries {c : Children Key} {key : Key} {old : Value}
    {before after : List (Key × Value)} (heq : c.entries = before ++ (key, old) :: after)
    (hbefore : ∀ child ∈ before, child.1 ≠ key) (hafter : ∀ child ∈ after, child.1 ≠ key) :
    (c.remove key).entries = before ++ after := by
  have hsame : ∀ l : List (Key × Value), (∀ child ∈ l, child.1 ≠ key) →
      l.filter (fun child => child.1 ≠ key) = l := by
    intro l hl
    apply List.filter_eq_self.mpr
    intro child hchild
    simpa using hl child hchild
  simp only [remove, heq, List.filter_append, hsame before hbefore]
  simpa using hsame after hafter

/-- The event that takes the children to `d`, and its notice. -/
theorem apply_cases {c d : Children Key} {e : ChildEvent Key} {notice : Notice}
    (h : c.apply e = some (d, notice)) :
    (∃ key value, ∃ hk : key ∉ c.keys, e = .added key value ∧ d = c.add key value hk ∧
      notice = ⟨.childAdded, value⟩) ∨
    (∃ key value old, e = .changed key value ∧ c.value? key = some old ∧
      d = c.change key value ∧ notice = ⟨.childChanged, value⟩) ∨
    (∃ key last, e = .removed key ∧ c.value? key = some last ∧ d = c.remove key ∧
      notice = ⟨.childRemoved, last⟩) := by
  cases e with
  | added key value =>
    simp only [apply] at h
    split at h
    · cases h
    · rename_i hk
      cases h
      exact Or.inl ⟨key, value, hk, rfl, rfl, rfl⟩
  | changed key value =>
    simp only [apply] at h
    split at h
    · rename_i old hold
      cases h
      exact Or.inr (Or.inl ⟨key, value, old, rfl, hold, rfl, rfl⟩)
    · cases h
  | removed key =>
    simp only [apply] at h
    split at h
    · rename_i last hlast
      cases h
      exact Or.inr (Or.inr ⟨key, last, rfl, hlast, rfl, rfl⟩)
    · cases h

end Children

end HateBlocker
