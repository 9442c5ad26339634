-- `PostsManager`: the block that it listens with, and what malformed values in
-- the database do to it.
import HateBlocker.FirebaseManager
import Mathlib.Data.List.InsertIdx

open Json

namespace HateBlocker

/-! ## The manager -/

/-- What waits on the main queue. `managerUpdated` only ever asks for one thing, to tell the
delegate. -/
inductive Block
  | managerUpdated
  deriving DecidableEq

structure PostsManager (Delegate : Type) where
  posts : List Post
  delegate : Option Delegate
  mainQueue : List Block

variable {Delegate : Type}

namespace PostsManager

/-- A manager that has heard nothing yet. -/
def empty : PostsManager Delegate := ⟨[], none, []⟩

/-- An assignment to `posts`, with its `didSet`. -/
def setPosts (m : PostsManager Delegate) (posts : List Post) : PostsManager Delegate :=
  { m with posts := posts, mainQueue := m.mainQueue ++ [.managerUpdated] }

/-- `posts.index(of: post)`. -/
def index (m : PostsManager Delegate) (post : Post) : Option ℕ :=
  m.posts.findIdx? (fun p => p.same post)

/-- The block that `startObserving` passes to `listenTo`. -/
def receive (operation : Operation) (post : Post) (m : PostsManager Delegate) :
    PostsManager Delegate :=
  match operation with
  | .added => m.setPosts (m.posts ++ [post])
  | .updated =>
    match m.index post with
    | some index => m.setPosts ((m.posts.eraseIdx index).insertIdx index post)
    | none => m
  | .removed =>
    match m.index post with
    | some index => m.setPosts (m.posts.eraseIdx index)
    | none => m

/-- What an event of the database does to the manager. -/
def observe (event : DataEventType) (snapshot : DataSnapshot) (m : PostsManager Delegate) :
    Completion (PostsManager Delegate) :=
  listenTo Post.decode receive event snapshot m

@[simp] theorem setPosts_posts (m : PostsManager Delegate) (posts : List Post) :
    (m.setPosts posts).posts = posts := rfl

@[simp] theorem setPosts_delegate (m : PostsManager Delegate) (posts : List Post) :
    (m.setPosts posts).delegate = m.delegate := rfl

@[simp] theorem setPosts_mainQueue (m : PostsManager Delegate) (posts : List Post) :
    (m.setPosts posts).mainQueue = m.mainQueue ++ [.managerUpdated] := rfl

/-- Every change of the list is followed by a block on the main queue. -/
theorem receive_cases (operation : Operation) (post : Post) (m : PostsManager Delegate) :
    m.receive operation post = m ∨ ∃ posts, m.receive operation post = m.setPosts posts := by
  cases operation with
  | added => exact Or.inr ⟨_, rfl⟩
  | updated | removed =>
    simp only [receive]
    split
    · exact Or.inr ⟨_, rfl⟩
    · exact Or.inl rfl

theorem receive_added (post : Post) (m : PostsManager Delegate) :
    (m.receive .added post).posts = m.posts ++ [post] := rfl

/-- An update puts the new post where the first post with its id was. -/
theorem receive_updated (post : Post) (m : PostsManager Delegate) :
    (m.receive .updated post).posts =
      match m.index post with
      | some index => m.posts.set index post
      | none => m.posts := by
  simp only [receive]
  cases hi : m.index post with
  | none => rfl
  | some index =>
    have hlt : index < m.posts.length := (List.findIdx?_eq_some_iff_findIdx_eq.mp hi).1
    exact List.insertIdx_eraseIdx_self (by omega) post

theorem receive_removed (post : Post) (m : PostsManager Delegate) :
    (m.receive .removed post).posts =
      match m.index post with
      | some index => m.posts.eraseIdx index
      | none => m.posts := by
  simp only [receive]
  split <;> rfl

/-- `receive`, with a record of the calls. -/
def recording (operation : Operation) (post : Post)
    (s : PostsManager Delegate × List (Operation × Post)) :
    PostsManager Delegate × List (Operation × Post) :=
  (s.1.receive operation post, s.2 ++ [(operation, post)])

/-- The handler ends; the block is called once, with the post and the operation that matches,
when the value decodes, and else the list stays as it was. -/
def HandledProperly (event : DataEventType) (value : Value) (m : PostsManager Delegate) : Prop :=
  ∃ m' calls, m.observe event ⟨some value⟩ = .normal m' ∧
    listenTo Post.decode recording event ⟨some value⟩ (m, []) = .normal (m', calls) ∧
    match Post.decode value with
    | .ok post => calls = [(event.operation, post)]
    | .error _ => calls = [] ∧ m'.posts = m.posts

/-- A value of the database is handled properly exactly when it is an array or an object. -/
theorem handledProperly_iff (event : DataEventType) (value : Value) (m : PostsManager Delegate) :
    HandledProperly event value m ↔ value.isContainer = true := by
  constructor
  · rintro ⟨m', calls, hm', -⟩
    by_contra hc
    rw [observe, listenTo_of_not_isContainer event m (by simpa using hc)] at hm'
    cases hm'
  · intro hc
    unfold HandledProperly
    cases hd : Post.decode value with
    | ok post =>
      exact ⟨m.receive event.operation post, [(event.operation, post)],
        listenTo_ok hc hd, listenTo_ok hc hd, rfl⟩
    | error e => exact ⟨m, [], listenTo_error hc hd, listenTo_error hc hd, rfl, rfl⟩

/-- A child that holds a bare string raises when it is added. -/
theorem a_string_raises :
    (PostsManager.empty : PostsManager Unit).observe .childAdded ⟨some (.string "hello")⟩ =
        .raised ∧
      ¬ HandledProperly .childAdded (.string "hello") (PostsManager.empty : PostsManager Unit) := by
  refine ⟨rfl, ?_⟩
  rintro ⟨m', calls, hm', -⟩
  cases hm'

end PostsManager

end HateBlocker
