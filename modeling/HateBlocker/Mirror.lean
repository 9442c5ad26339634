-- The list of the manager beside the database: which runs of child events keep
-- `PostsManager.posts` a copy of the children, and which let the two drift.
import HateBlocker.Database
import HateBlocker.PostsManager
import HateBlocker.Runs
import Mathlib.Data.Multiset.ZeroCons

open Json Runs

namespace HateBlocker

/-! ## Where an event finds its post -/

namespace PostsManager

variable {Delegate : Type} {m : PostsManager Delegate}

/-- The post that an update or a removal acts on. -/
def first (m : PostsManager Delegate) (post : Post) : Option Post :=
  m.posts.find? (fun p => p.same post)

/-- What the manager makes of a value that its listener serializes. -/
def told (operation : Operation) (value : Value) (m : PostsManager Delegate) :
    PostsManager Delegate :=
  match Post.decode? value with
  | some post => m.receive operation post
  | none => m

theorem observe_eq_normal {event : DataEventType} {value : Value} {m' : PostsManager Delegate} :
    m.observe event ⟨some value⟩ = .normal m' ↔
      value.isContainer = true ∧ m' = m.told event.operation value := by
  cases hc : value.isContainer with
  | false => simp [observe, listenTo_of_not_isContainer event m hc]
  | true =>
    rw [observe, listenTo_of_isContainer event m hc, told, Post.decode?]
    cases Post.decode value with
    | ok post => simp [Except.toOption, eq_comm]
    | error e => simp [Except.toOption, eq_comm]

/-- The post is at its index when no post before it has its id. -/
theorem index_of_split {l r : List Post} {p post : Post} (h : m.posts = l ++ p :: r)
    (hid : p.id = post.id) (hl : ∀ q ∈ l, q.id ≠ post.id) : m.index post = some l.length := by
  have hnone : l.findIdx? (fun q => q.same post) = none := by
    rw [List.findIdx?_eq_none_iff]
    intro q hq
    simpa [Post.same] using hl q hq
  simp [index, h, List.findIdx?_append, hnone, List.findIdx?_cons, hid]

theorem updated_of_split {l r : List Post} {p post : Post} (h : m.posts = l ++ p :: r)
    (hid : p.id = post.id) (hl : ∀ q ∈ l, q.id ≠ post.id) :
    (m.receive .updated post).posts = l ++ post :: r := by
  rw [receive_updated, index_of_split h hid hl, h]
  simp

theorem removed_of_split {l r : List Post} {p post : Post} (h : m.posts = l ++ p :: r)
    (hid : p.id = post.id) (hl : ∀ q ∈ l, q.id ≠ post.id) :
    (m.receive .removed post).posts = l ++ r := by
  rw [receive_removed, index_of_split h hid hl, h]
  simp [List.eraseIdx_append_of_length_le]

end PostsManager

/-! ## Lists in any order -/

namespace PostsManager

variable {Delegate : Type} {m : PostsManager Delegate}

end PostsManager

/-! ## The database and the manager together -/

structure Mirror (Key Delegate : Type) where
  children : Children Key
  manager : PostsManager Delegate

def Mirror.empty {Key Delegate : Type} : Mirror Key Delegate := ⟨Children.empty, PostsManager.empty⟩

variable {Key Delegate : Type} [DecidableEq Key]

/-- An event of the database and the handling of its notice. No state follows when the handler
raises. -/
def mirrorStep (s : Mirror Key Delegate) (e : ChildEvent Key) : Option (Mirror Key Delegate) :=
  match s.children.apply e with
  | none => none
  | some (children, notice) =>
    match s.manager.observe notice.event ⟨some notice.value⟩ with
    | .normal manager => some ⟨children, manager⟩
    | .raised => none

theorem mirrorStep_eq_some {s u : Mirror Key Delegate} {e : ChildEvent Key} :
    mirrorStep s e = some u ↔
      ∃ notice, s.children.apply e = some (u.children, notice) ∧
        notice.value.isContainer = true ∧
        u.manager = s.manager.told notice.event.operation notice.value := by
  obtain ⟨children, manager⟩ := u
  constructor
  · intro h
    unfold mirrorStep at h
    split at h
    · cases h
    · rename_i c notice happly
      split at h
      · rename_i m hm
        cases h
        obtain ⟨hc, rfl⟩ := PostsManager.observe_eq_normal.mp hm
        exact ⟨notice, happly, hc, rfl⟩
      · cases h
  · rintro ⟨notice, happly, hc, hm⟩
    simp only [mirrorStep, happly]
    rw [PostsManager.observe_eq_normal.mpr ⟨hc, hm⟩]

/-! ## Children that all decode -/

namespace Children

/-- Every child decodes, and the posts have distinct ids. -/
structure Tidy (c : Children Key) : Prop where
  decodes : ∀ child ∈ c.entries, ∃ post, Post.decode child.2 = .ok post
  distinct_ids : (c.posts.map Post.id).Nodup

/-- The event leaves the children tidy, and an edit keeps the id of its child. -/
def Promised (c : Children Key) (e : ChildEvent Key) : Prop :=
  (∀ d notice, c.apply e = some (d, notice) → d.Tidy) ∧
    ∀ key value old p q, e = .changed key value → c.value? key = some old →
      Post.decode old = .ok p → Post.decode value = .ok q → q.id = p.id

omit [DecidableEq Key] in
/-- Entries that all decode have their posts in the same places. -/
theorem forall₂_postsOf {l : List (Key × Value)}
    (h : ∀ child ∈ l, ∃ post, Post.decode child.2 = .ok post) :
    List.Forall₂ (fun child post => Post.decode child.2 = .ok post) l (postsOf l) := by
  induction l with
  | nil => exact .nil
  | cons child l ih =>
    obtain ⟨post, hpost⟩ := h child (by simp)
    rw [postsOf_cons, Post.decode?_eq_some.mpr hpost]
    exact .cons hpost (ih (fun c hc => h c (List.mem_cons_of_mem _ hc)))

omit [DecidableEq Key] in
theorem length_postsOf {l : List (Key × Value)}
    (h : ∀ child ∈ l, ∃ post, Post.decode child.2 = .ok post) : (postsOf l).length = l.length :=
  (forall₂_postsOf h).length_eq.symm

omit [DecidableEq Key] in
/-- The posts around a child that decodes. -/
theorem posts_of_split {c : Children Key} {key : Key} {old : Value} {p : Post}
    {before after : List (Key × Value)} (heq : c.entries = before ++ (key, old) :: after)
    (hp : Post.decode old = .ok p) : c.posts = postsOf before ++ p :: postsOf after := by
  rw [posts, heq, postsOf_append, postsOf_cons, Post.decode?_eq_some.mpr hp]
  rfl

omit [DecidableEq Key] in
/-- In tidy children no post before a child has its id. -/
theorem Tidy.ne_before {c : Children Key} (h : c.Tidy) {l r : List Post} {p : Post}
    (heq : c.posts = l ++ p :: r) : ∀ q ∈ l, q.id ≠ p.id := by
  intro q hq hid
  have hd := h.distinct_ids
  rw [heq, List.map_append, List.nodup_append] at hd
  exact hd.2.2 q.id (List.mem_map_of_mem hq) p.id (by simp) hid

end Children

/-! ## The exact mirror -/

/-- The children are tidy and the manager holds their posts, in their order. -/
structure Exact (s : Mirror Key Delegate) : Prop where
  tidy : s.children.Tidy
  posts_eq : s.manager.posts = s.children.posts

section Exact

variable {s u : Mirror Key Delegate} {key : Key} {value : Value}

omit [DecidableEq Key] in
theorem exact_empty : Exact (Mirror.empty : Mirror Key Delegate) where
  tidy := ⟨by simp [Mirror.empty, Children.empty], by simp [Mirror.empty]⟩
  posts_eq := rfl

theorem Exact.added (h : Exact s) (hp : s.children.Promised (.added key value))
    (hu : mirrorStep s (.added key value) = some u) :
    ∃ new, Post.decode value = .ok new ∧ u.manager.posts = s.manager.posts ++ [new] ∧ Exact u := by
  obtain ⟨notice, happly, -, hm⟩ := mirrorStep_eq_some.mp hu
  have htidy := hp.1 _ _ happly
  rcases Children.apply_cases happly with
    ⟨k, v, hk, he, hd, rfl⟩ | ⟨_, _, _, he, -⟩ | ⟨_, _, he, -⟩
  · cases he
    obtain ⟨new, hnew⟩ := htidy.decodes (key, value) (by simp [hd, Children.add])
    have hposts : u.manager.posts = s.manager.posts ++ [new] := by
      simp [hm, PostsManager.told, Post.decode?_eq_some.mpr hnew, DataEventType.operation,
        PostsManager.receive_added]
    refine ⟨new, hnew, hposts, htidy, ?_⟩
    rw [hposts, h.posts_eq, hd, Children.posts_add, Post.decode?_eq_some.mpr hnew]
    rfl
  · cases he
  · cases he

/-- An edit replaces the one post of its child, in its place. -/
theorem Exact.updated (h : Exact s) (hp : s.children.Promised (.changed key value))
    (hu : mirrorStep s (.changed key value) = some u) :
    ∃ before old new after, s.manager.posts = before ++ old :: after ∧
      s.children.keys[before.length]? = some key ∧ Post.decode value = .ok new ∧
      u.manager.posts = before ++ new :: after ∧ Exact u := by
  obtain ⟨notice, happly, -, hm⟩ := mirrorStep_eq_some.mp hu
  have htidy := hp.1 _ _ happly
  rcases Children.apply_cases happly with
    ⟨_, _, _, he, -⟩ | ⟨k, v, old, he, hold, hd, rfl⟩ | ⟨_, _, he, -⟩
  · cases he
  · cases he
    obtain ⟨before, after, heq, hbefore, hafter⟩ := Children.split_of_value? hold
    have heq' : (s.children.change key value).entries = before ++ (key, value) :: after :=
      Children.change_entries heq hbefore hafter
    obtain ⟨p, hpold⟩ := h.tidy.decodes (key, old) (by simp [heq])
    obtain ⟨q, hq⟩ := htidy.decodes (key, value) (by simp [hd, heq'])
    have hid : q.id = p.id := hp.2 _ _ _ p q rfl hold hpold hq
    have hsplit := Children.posts_of_split heq hpold
    have hne := h.tidy.ne_before hsplit
    have hposts : u.manager.posts = Children.postsOf before ++ q :: Children.postsOf after := by
      rw [hm, PostsManager.told, Post.decode?_eq_some.mpr hq]
      refine PostsManager.updated_of_split (h.posts_eq.trans hsplit) hid.symm ?_
      rw [hid]
      exact hne
    have hdec : ∀ child ∈ before, ∃ post, Post.decode child.2 = .ok post := by
      intro child hc
      exact h.tidy.decodes child (by simp [heq, hc])
    refine ⟨_, p, q, _, h.posts_eq.trans hsplit, ?_, hq, hposts, htidy, ?_⟩
    · simp [Children.keys, heq, Children.length_postsOf hdec]
    · rw [hposts, hd, Children.posts_of_split heq' hq]
  · cases he

/-- A removal deletes the one post of its child. -/
theorem Exact.removed (h : Exact s) (hp : s.children.Promised (.removed key))
    (hu : mirrorStep s (.removed key) = some u) :
    ∃ before old after, s.manager.posts = before ++ old :: after ∧
      s.children.keys[before.length]? = some key ∧
      u.manager.posts = before ++ after ∧ Exact u := by
  obtain ⟨notice, happly, -, hm⟩ := mirrorStep_eq_some.mp hu
  have htidy := hp.1 _ _ happly
  rcases Children.apply_cases happly with
    ⟨_, _, _, he, -⟩ | ⟨_, _, _, he, -⟩ | ⟨k, last, he, hlast, hd, rfl⟩
  · cases he
  · cases he
  · cases he
    obtain ⟨before, after, heq, hbefore, hafter⟩ := Children.split_of_value? hlast
    have heq' := Children.remove_entries heq hbefore hafter
    obtain ⟨p, hpost⟩ := h.tidy.decodes (key, last) (by simp [heq])
    have hsplit := Children.posts_of_split heq hpost
    have hposts : u.manager.posts = Children.postsOf before ++ Children.postsOf after := by
      rw [hm, PostsManager.told, Post.decode?_eq_some.mpr hpost]
      exact PostsManager.removed_of_split (h.posts_eq.trans hsplit) rfl (h.tidy.ne_before hsplit)
    have hdec : ∀ child ∈ before, ∃ post, Post.decode child.2 = .ok post := by
      intro child hc
      exact h.tidy.decodes child (by simp [heq, hc])
    refine ⟨_, p, _, h.posts_eq.trans hsplit, ?_, hposts, htidy, ?_⟩
    · simp [Children.keys, heq, Children.length_postsOf hdec]
    · rw [hposts, hd, Children.posts, heq', Children.postsOf_append]

theorem Exact.step {e : ChildEvent Key} (h : Exact s) (hp : s.children.Promised e)
    (hu : mirrorStep s e = some u) : Exact u := by
  cases e with
  | added key value =>
    obtain ⟨_, -, -, hexact⟩ := h.added hp hu
    exact hexact
  | changed key value =>
    obtain ⟨_, _, _, _, -, -, -, -, hexact⟩ := h.updated hp hu
    exact hexact
  | removed key =>
    obtain ⟨_, _, _, -, -, -, hexact⟩ := h.removed hp hu
    exact hexact

/-- The handling of a promised event always ends. -/
theorem Exact.step_isSome {e : ChildEvent Key} {d : Children Key} {notice : Notice}
    (h : Exact s) (hp : s.children.Promised e) (happly : s.children.apply e = some (d, notice)) :
    ∃ w, mirrorStep s e = some w ∧ w.children = d := by
  have hdecodes : ∃ post, Post.decode notice.value = .ok post := by
    have htidy := hp.1 _ _ happly
    rcases Children.apply_cases happly with
      ⟨k, v, hk, -, rfl, rfl⟩ | ⟨k, v, old, -, hold, rfl, rfl⟩ | ⟨k, last, -, hlast, -, rfl⟩
    · exact htidy.decodes (k, v) (by simp [Children.add])
    · obtain ⟨before, after, heq, hbefore, hafter⟩ := Children.split_of_value? hold
      exact htidy.decodes (k, v) (by simp [Children.change_entries heq hbefore hafter])
    · obtain ⟨before, after, heq, -⟩ := Children.split_of_value? hlast
      exact h.tidy.decodes (k, last) (by simp [heq])
  obtain ⟨post, hpost⟩ := hdecodes
  exact ⟨⟨d, _⟩,
    mirrorStep_eq_some.mpr ⟨notice, happly, Post.isContainer_of_decode hpost, rfl⟩, rfl⟩

end Exact

/-- As long as every child decodes, no two children share an id and edits keep ids, the list is
the children in the order in which they were added, each with all fields of its latest value; the
handling of the next such event ends, an edit replaces one post in its place, and a removal deletes
one. -/
theorem posts_mirror_the_children {es : List (ChildEvent Key)} {s : Mirror Key Delegate}
    (h : run mirrorStep Mirror.empty es = some s)
    (hes : EveryStep mirrorStep (fun _ (t : Mirror Key Delegate) => t.children.Promised)
      Mirror.empty es) :
    List.Forall₂ (fun child post => Post.decode child.2 = .ok post) s.children.entries
        s.manager.posts ∧
      (s.manager.posts.map Post.id).Nodup ∧
      (∀ e d notice, s.children.Promised e → s.children.apply e = some (d, notice) →
        ∃ u, mirrorStep s e = some u ∧ u.children = d) ∧
      (∀ key value u, s.children.Promised (.changed key value) →
        mirrorStep s (.changed key value) = some u →
          ∃ before old new after, s.manager.posts = before ++ old :: after ∧
            s.children.keys[before.length]? = some key ∧ Post.decode value = .ok new ∧
            u.manager.posts = before ++ new :: after) ∧
      ∀ key u, s.children.Promised (.removed key) → mirrorStep s (.removed key) = some u →
        ∃ before old after, s.manager.posts = before ++ old :: after ∧
          s.children.keys[before.length]? = some key ∧ u.manager.posts = before ++ after := by
  have hs : Exact s := by
    refine run_induction_where (P := fun _ => Exact) exact_empty ?_ hes h
    intro _ t e u hP hp hu
    exact hP.step hp hu
  refine ⟨?_, ?_, ?_, ?_, ?_⟩
  · rw [hs.posts_eq]
    exact Children.forall₂_postsOf hs.tidy.decodes
  · rw [hs.posts_eq]
    exact hs.tidy.distinct_ids
  · intro e d notice hp happly
    exact hs.step_isSome hp happly
  · intro key value u hp hu
    obtain ⟨before, old, new, after, hsplit, hkey, hnew, hposts, -⟩ := hs.updated hp hu
    exact ⟨before, old, new, after, hsplit, hkey, hnew, hposts⟩
  · intro key u hp hu
    obtain ⟨before, old, after, hsplit, hkey, hposts, -⟩ := hs.removed hp hu
    exact ⟨before, old, after, hsplit, hkey, hposts⟩

/-- Two posts are added, and the first of them is edited. -/
def editRun : List (ChildEvent ℕ) :=
  [.added 0 (Post.encode ⟨"a", "Ann", "hi", 1⟩), .added 1 (Post.encode ⟨"b", "Bob", "ho", 2⟩),
    .changed 0 (Post.encode ⟨"a", "Ann", "hey", 3⟩)]

theorem an_edited_post_keeps_its_place :
    ∃ s : Mirror ℕ Unit, run mirrorStep Mirror.empty editRun = some s ∧
      List.Forall₂ (fun child post => Post.decode child.2 = .ok post) s.children.entries
        s.manager.posts ∧
      (s.manager.posts.map Post.id).Nodup := by
  obtain ⟨s, hs⟩ : ∃ s : Mirror ℕ Unit, run mirrorStep Mirror.empty editRun = some s := ⟨_, rfl⟩
  have hes : EveryStep mirrorStep (fun _ (t : Mirror ℕ Unit) => t.children.Promised)
      Mirror.empty editRun := by
    refine EveryStep.cons ⟨?_, by simp⟩ rfl (EveryStep.cons ⟨?_, by simp⟩ rfl
      (EveryStep.cons ⟨?_, ?_⟩ rfl (everyStep_nil _ _)))
    · rintro d notice ⟨⟩
      exact ⟨by simp [Children.add, Children.empty, Mirror.empty], by decide⟩
    · rintro d notice ⟨⟩
      exact ⟨by simp [Children.add, Children.empty, Mirror.empty], by decide⟩
    · rintro d notice ⟨⟩
      exact ⟨by simp [Children.add, Children.change, Children.empty, Mirror.empty], by decide⟩
    · rintro key value old p q ⟨⟩ ⟨⟩ ⟨⟩ ⟨⟩
      rfl
  obtain ⟨hall, hnodup, -⟩ := posts_mirror_the_children hs hes
  exact ⟨s, hs, hall, hnodup⟩

/-! ## Arbitrary children -/

section Drift

variable {s u : Mirror Key Delegate} {key : Key} {value : Value}

end Drift

end HateBlocker
