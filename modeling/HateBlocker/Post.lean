-- `Post`, its equality, and the decoder and the encoder that `Codable` makes for
-- it. Two posts are equal when their ids are, whatever they say.
import HateBlocker.Json

open Json

namespace HateBlocker

/-- A date is the number of seconds since 1970, as `FirebaseManager` stores it. -/
structure Post where
  id : String
  author : String
  text : String
  postedAt : ℚ
  deriving DecidableEq

/-- `==` of the source. -/
def Post.same (lhs rhs : Post) : Bool := lhs.id == rhs.id

@[simp] theorem Post.same_iff {lhs rhs : Post} : lhs.same rhs = true ↔ lhs.id = rhs.id := by
  simp [Post.same]

/-! ## Decoding -/

/-- The errors of `JSONDecoder`, each with the path of keys that it names. -/
inductive DecodingError
  | keyNotFound (key : String) (path : List String)
  | valueNotFound (path : List String)
  | typeMismatch (path : List String)
  deriving DecidableEq

/-- `decode(_:forKey:)` of the container of a value without parents. -/
def decodeKey {α : Type} (unbox : Value → Option α) (members : List (String × Value))
    (key : String) : Except DecodingError α :=
  match members.lookup key with
  | none => .error (.keyNotFound key [])
  | some .null => .error (.valueNotFound [key])
  | some value =>
    match unbox value with
    | some a => .ok a
    | none => .error (.typeMismatch [key])

/-- `init(from:)`, the keys in the order of the fields. -/
def Post.decode : Value → Except DecodingError Post
  | .object members => do
    let id ← decodeKey Value.string? members "id"
    let author ← decodeKey Value.string? members "author"
    let text ← decodeKey Value.string? members "text"
    let postedAt ← decodeKey Value.number? members "postedAt"
    return ⟨id, author, text, postedAt⟩
  | .null => .error (.valueNotFound [])
  | _ => .error (.typeMismatch [])

def Post.encode (post : Post) : Value :=
  .object [("id", .string post.id), ("author", .string post.author),
    ("text", .string post.text), ("postedAt", .number post.postedAt)]

/-- What was written is read back. -/
@[simp] theorem Post.decode_encode (post : Post) : Post.decode post.encode = .ok post := rfl

/-- Only an object decodes. -/
theorem Post.isContainer_of_decode {value : Value} {post : Post}
    (h : Post.decode value = .ok post) : value.isContainer = true := by
  cases value with
  | object => rfl
  | _ => cases h

/-- The post that a value decodes as, where it does. -/
def Post.decode? (value : Value) : Option Post := (Post.decode value).toOption

@[simp] theorem Post.decode?_eq_some {value : Value} {post : Post} :
    Post.decode? value = some post ↔ Post.decode value = .ok post := by
  unfold Post.decode?
  cases Post.decode value <;> simp [Except.toOption]

@[simp] theorem Post.decode?_encode (post : Post) : Post.decode? post.encode = some post := by
  simp

end HateBlocker
