-- `FirebaseManager.listenTo`: a snapshot becomes data, the data an object, and
-- the object goes to the block. The serializer fails in a way that `try?` does
-- not catch.
import HateBlocker.Post

open Json

namespace HateBlocker

/-! ## Snapshots -/

structure DataSnapshot where
  value : Option Value

/-- How a call ends: normally, or with an Objective-C exception that no handler of the program
catches. -/
inductive Completion (α : Type)
  | normal (a : α)
  | raised
  deriving DecidableEq

/-- `JSONSerialization.data(withJSONObject:options:)` raises unless an array or an object stands
at the top. Of the data it makes, only the value that a reader gets back matters here. -/
def serialize (value : Value) : Completion Value :=
  if value.isContainer then .normal value else .raised

/-- `DataSnapshot.data`. The `try?` would turn a Swift error into nothing, but an exception
passes it. -/
def DataSnapshot.data (snapshot : DataSnapshot) : Completion (Option Value) :=
  match snapshot.value with
  | none => .normal none
  | some value =>
    match serialize value with
    | .normal data => .normal (some data)
    | .raised => .raised

/-! ## Listening -/

/-- `FirebaseManager.Operation`. -/
inductive Operation
  | added
  | updated
  | removed
  deriving DecidableEq

inductive DataEventType
  | childAdded
  | childChanged
  | childRemoved
  deriving DecidableEq

variable {Object S : Type}

/-- The closure that `listenTo` observes an event with. The three of them differ only in the
operation. The managers live as long as the app, so the weak `self` is always there. -/
def observer (operation : Operation) (decode : Value → Except DecodingError Object)
    (block : Operation → Object → S → S) (snapshot : DataSnapshot) (s : S) : Completion S :=
  match snapshot.data with
  | .raised => .raised
  | .normal none => .normal s
  | .normal (some data) =>
    match decode data with
    | .ok object => .normal (block operation object s)
    | .error _ => .normal s

/-- What `listenTo` does on each event, `s` being what the block may change. -/
def listenTo (decode : Value → Except DecodingError Object) (block : Operation → Object → S → S) :
    DataEventType → DataSnapshot → S → Completion S
  | .childAdded => observer .added decode block
  | .childChanged => observer .updated decode block
  | .childRemoved => observer .removed decode block

/-- The operation that goes with an event. -/
def DataEventType.operation : DataEventType → Operation
  | .childAdded => .added
  | .childChanged => .updated
  | .childRemoved => .removed

theorem data_of_isContainer {value : Value} (h : value.isContainer = true) :
    DataSnapshot.data ⟨some value⟩ = .normal (some value) := by
  simp [DataSnapshot.data, serialize, h]

theorem data_of_not_isContainer {value : Value} (h : value.isContainer = false) :
    DataSnapshot.data ⟨some value⟩ = .raised := by
  simp [DataSnapshot.data, serialize, h]

section Listening

variable {decode : Value → Except DecodingError Object} {block : Operation → Object → S → S}
  {value : Value}

/-- An array or an object is decoded, and the block gets what comes out. -/
theorem listenTo_of_isContainer (event : DataEventType) (s : S)
    (h : value.isContainer = true) :
    listenTo decode block event ⟨some value⟩ s =
      match decode value with
      | .ok object => .normal (block event.operation object s)
      | .error _ => .normal s := by
  cases event <;> simp [listenTo, observer, data_of_isContainer h, DataEventType.operation]

/-- Any other value raises, whatever the event. -/
theorem listenTo_of_not_isContainer (event : DataEventType) (s : S)
    (h : value.isContainer = false) :
    listenTo decode block event ⟨some value⟩ s = .raised := by
  cases event <;> simp [listenTo, observer, data_of_not_isContainer h]

theorem listenTo_ok {event : DataEventType} {s : S} {object : Object}
    (h : value.isContainer = true) (hd : decode value = .ok object) :
    listenTo decode block event ⟨some value⟩ s = .normal (block event.operation object s) := by
  rw [listenTo_of_isContainer event s h, hd]

theorem listenTo_error {event : DataEventType} {s : S} {error : DecodingError}
    (h : value.isContainer = true) (hd : decode value = .error error) :
    listenTo decode block event ⟨some value⟩ s = .normal s := by
  rw [listenTo_of_isContainer event s h, hd]

end Listening

end HateBlocker
