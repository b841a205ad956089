import MapStyle.Json.Token

/-!
# Reading JSON text

A value is built from tokens by a machine that holds the containers still open as a stack of
frames. It takes one token at a time, so reading ends with the tokens, and the depth of nesting is
the height of the stack, which is bounded by `maxDepth`.

Reading is strict: one value with nothing before or after it but spaces, no comma before a closing
mark. A repeated key keeps its first place and its last value.
-/

namespace MapStyle

namespace Json

variable {α : Type} [Scalar α]

/-- The number of containers that may be open at once. -/
def maxDepth : Nat := 127

/-- A container that is still open. -/
inductive Frame (α : Type) [Scalar α] where
  /-- A list, with its elements so far in reverse order. -/
  | list (done : List (Json α))
  /-- An object with its entries so far, and the key whose value is being read. -/
  | object (done : Entries (Json α)) (key : Option String)

/-- What the machine is ready for. -/
inductive Expecting (α : Type) [Scalar α] where
  /-- A value; or, just after a list was opened, its end. -/
  | value (orEnd : Bool)
  /-- A key; or, just after an object was opened, its end. -/
  | key (orEnd : Bool)
  /-- The mark between a key and its value. -/
  | colon
  /-- What follows the finished value `v`. -/
  | after (v : Json α)

/-- The state of the machine between two tokens. -/
structure Reader (α : Type) [Scalar α] where
  /-- The open containers, innermost first. -/
  frames : List (Frame α)
  /-- What may come next. -/
  expecting : Expecting α

namespace Reader

/-- Opens a container, unless too many are open. -/
def opening (frames : List (Frame α)) (frame : Frame α) (next : Expecting α) : Option (Reader α) :=
  if frames.length < maxDepth then some ⟨frame :: frames, next⟩ else none

/-- Takes a token where a value is expected. -/
def value? (frames : List (Frame α)) (orEnd : Bool) : Token α → Option (Reader α)
  | .plain v => some ⟨frames, .after v⟩
  | .text s => some ⟨frames, .after (str s)⟩
  | .openList => opening frames (.list []) (.value true)
  | .openObject => opening frames (.object [] none) (.key true)
  | .closeList =>
    match orEnd, frames with
    | true, .list done :: frames => some ⟨frames, .after (arr done.reverse)⟩
    | _, _ => none
  | _ => none

/-- Takes a token where a key is expected. -/
def key? (frames : List (Frame α)) (orEnd : Bool) (t : Token α) : Option (Reader α) :=
  match frames, t with
  | .object done _ :: frames, .text k => some ⟨.object done (some k) :: frames, .colon⟩
  | .object done _ :: frames, .closeObject =>
    if orEnd then some ⟨frames, .after (obj done)⟩ else none
  | _, _ => none

/-- Takes a token after the finished value `v`. -/
def after? (frames : List (Frame α)) (v : Json α) (t : Token α) : Option (Reader α) :=
  match frames, t with
  | .list done :: frames, .comma => some ⟨.list (v :: done) :: frames, .value false⟩
  | .list done :: frames, .closeList => some ⟨frames, .after (arr (v :: done).reverse)⟩
  | .object done (some k) :: frames, .comma =>
    some ⟨.object (Entries.insert k v done) none :: frames, .key false⟩
  | .object done (some k) :: frames, .closeObject =>
    some ⟨frames, .after (obj (Entries.insert k v done))⟩
  | _, _ => none

/-- Takes a token where a colon is expected. -/
def colon? (frames : List (Frame α)) : Token α → Option (Reader α)
  | .colon => some ⟨frames, .value false⟩
  | _ => none

/-- **One step of the machine.** -/
def step? (r : Reader α) (t : Token α) : Option (Reader α) :=
  match r.expecting with
  | .value orEnd => value? r.frames orEnd t
  | .key orEnd => key? r.frames orEnd t
  | .colon => colon? r.frames t
  | .after v => after? r.frames v t

/-- The machine before the first token. -/
def start : Reader α := ⟨[], .value false⟩

/-- The value that was read, once no container is open. -/
def result? (r : Reader α) : Option (Json α) :=
  match r.frames, r.expecting with
  | [], .after v => some v
  | _, _ => none

end Reader

/-- **The value written by a JSON text**, or nothing if the text is not JSON. -/
def read? (text : String) : Option (Json α) := do
  let tokens ← tokens? text.toList
  (← tokens.foldlM Reader.step? Reader.start).result?

end Json

end MapStyle
