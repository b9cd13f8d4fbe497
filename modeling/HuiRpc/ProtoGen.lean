/-
# Generating interface structs from a proto file

`G_Parser` (`proto-parser/source/parser.cpp`) walks the services of a parsed proto file and writes a
header: for each service a struct, in it the structs and enums of the types that its messages use,
and for each method a struct with a `request` and a `response`.

`ans` is kept as the list of what is appended to it (`Chunk`), with `Chunk.text` for the characters,
and a field's line keeps the field it stands for beside the type name written for it.  The name map
`mp` is the function it represents.  `add_message_inside` calls itself; it has a name entered into
`mp` before each call below it, so as many levels suffice as there are messages
(`addMessageInside_total`), and the generator returns for every file (`parserFile_isSome`).

* `Grew` — what a part of the walk adds: type declarations with one line for each field, under
  names that `mp` did not have;
* `nested_fields_listed_iff` — a struct of a nested message has no `PROCESS_FIELDS`, so its fields
  are listed just if it has none to list.
-/
import Mathlib

namespace HuiRpc.Proto

variable {M E : Type}

/-! ## Descriptors -/

/-- The field types that `type_name` tells apart besides `message` and `enum`. -/
inductive ScalarType
  | double | float | int64 | uint64 | int32 | fixed64 | fixed32 | bool | string | group | bytes
  | uint32 | sfixed32 | sfixed64 | sint32 | sint64
deriving DecidableEq

/-- `type_name()`. -/
def ScalarType.typeName : ScalarType → String
  | double => "double"
  | float => "float"
  | int64 => "int64"
  | uint64 => "uint64"
  | int32 => "int32"
  | fixed64 => "fixed64"
  | fixed32 => "fixed32"
  | bool => "bool"
  | string => "string"
  | group => "group"
  | bytes => "bytes"
  | uint32 => "uint32"
  | sfixed32 => "sfixed32"
  | sfixed64 => "sfixed64"
  | sint32 => "sint32"
  | sint64 => "sint64"

/-- Messages and enums are given by their descriptors `M` and `E`: two of them can have the same
`name()` when they stand in different scopes of the proto file. -/
inductive FieldType (M E : Type)
  | scalar (s : ScalarType)
  | message (m : M)
  | enum (e : E)
deriving DecidableEq

structure FieldDescriptor (M E : Type) where
  name : String
  repeated : Bool
  type : FieldType M E
deriving DecidableEq

/-- A message type. -/
structure Descriptor (M E : Type) where
  name : String
  fields : List (FieldDescriptor M E)

structure EnumDescriptor where
  name : String
  values : List (String × ℤ)

structure MethodDescriptor (M : Type) where
  name : String
  inputType : M
  outputType : M

/-- The parser refuses a service with two methods of one name. -/
structure ServiceDescriptor (M : Type) where
  name : String
  methods : List (MethodDescriptor M)
  nodup : (methods.map MethodDescriptor.name).Nodup

/-- The types of a proto file by their descriptors. -/
structure FileDescriptor (M E : Type) where
  message : M → Descriptor M E
  enumType : E → EnumDescriptor
  services : List (ServiceDescriptor M)

/-- The key under which the type of a field is looked up. -/
def FileDescriptor.nameOf (F : FileDescriptor M E) : FieldType M E → String
  | .scalar s => s.typeName
  | .message m => (F.message m).name
  | .enum e => (F.enumType e).name

@[simp] theorem FileDescriptor.nameOf_message (F : FileDescriptor M E) (m : M) :
    F.nameOf (.message m) = (F.message m).name := rfl

@[simp] theorem FileDescriptor.nameOf_enum (F : FileDescriptor M E) (e : E) :
    F.nameOf (.enum e) = (F.enumType e).name := rfl

/-! ## The generated text -/

/-- `n` tabs. -/
def t (n : ℕ) : String := String.join (List.replicate n "\t")

def insideVariable (type name : String) : String := t 3 ++ type ++ " " ++ name ++ ";" ++ "\n"

def repeatedInsideVariable (type name : String) : String :=
  t 3 ++ "RPC::array<" ++ type ++ "> " ++ name ++ ";" ++ "\n"

/-- The line of a field, with the type name that was written into it. -/
structure FieldLine (M E : Type) where
  field : FieldDescriptor M E
  typeName : String

/-- An array for a repeated field. -/
def FieldLine.text (l : FieldLine M E) : String :=
  if l.field.repeated then repeatedInsideVariable l.typeName l.field.name
  else insideVariable l.typeName l.field.name

/-- The inside of a struct: its field lines, and the names in its `PROCESS_FIELDS` if it has one. -/
structure Body (M E : Type) where
  lines : List (FieldLine M E)
  processFields : Option (List String)

/-- The fields that the struct lists for serialization. -/
def Body.listed (b : Body M E) : List String := b.processFields.getD []

/-- The lines of a struct without its braces. -/
def Body.text (b : Body M E) : String :=
  String.join (b.lines.map FieldLine.text) ++
    match b.processFields with
    | none => ""
    | some names => t 3 ++ "PROCESS_FIELDS(" ++ ",".intercalate names ++ ");\n"

/-- The struct of a method. -/
structure MethodText (M E : Type) where
  name : String
  fid : ℤ
  request : Body M E
  response : Body M E

def MethodText.text (k : MethodText M E) : String :=
  t 1 ++ "struct " ++ k.name ++ " \x7b\n" ++
  t 2 ++ "const static uint32_t FID = " ++ toString k.fid ++ ";\n" ++
  t 2 ++ "struct request: public RPC::message\x7b\n" ++ k.request.text ++ t 2 ++ "\x7d;\n" ++
  t 2 ++ "struct response: public RPC::message\x7b\n" ++ k.response.text ++ t 2 ++ "\x7d;\n" ++
  t 1 ++ "\x7d;\n"

/-- What `add_message_inside` and `add_enum_inside` append. -/
inductive TypeDecl (M E : Type)
  | message (m : M) (body : Body M E)
  | enum (e : E)

/-- The type that is declared. -/
def TypeDecl.type : TypeDecl M E → FieldType M E
  | message m _ => .message m
  | enum e => .enum e

def parserEnum (genum : EnumDescriptor) : String :=
  t 1 ++ "enum " ++ genum.name ++ " \x7b " ++
    ",".intercalate (genum.values.map fun v => v.1 ++ "=" ++ toString v.2) ++ "\x7d;\n"

def TypeDecl.text (F : FileDescriptor M E) : TypeDecl M E → String
  | message m body =>
    t 1 ++ "struct " ++ (F.message m).name ++ " \x7b\n" ++ body.text ++ t 1 ++ "\x7d;\n"
  | enum e => parserEnum (F.enumType e)

/-- The pieces that the generator appends to `ans`. -/
inductive Chunk (M E : Type)
  | interface (iid : ℤ)
  | openService (name : String)
  | type (d : TypeDecl M E)
  | methods (ms : List (MethodText M E))
  | closeService

def Chunk.text (F : FileDescriptor M E) : Chunk M E → String
  | interface iid =>
    "struct P2P_Interface\n\x7b\n\tconst static uint32_t IID = " ++ toString iid ++ ";\n\x7d;\n"
  | openService name => "struct " ++ name ++ ": public P2P_Interface" ++ " \x7b\n"
  | type d => d.text F
  | methods ms => String.join (ms.map MethodText.text)
  | closeService => "\x7d\n"

/-! ## The generator -/

/-- `ans` is kept as its pieces. -/
structure GParser (M E : Type) where
  ans : List (Chunk M E)
  mp : String → Option String
  parseredMsg : List String
  firstIID : ℤ

/-- `init_mp`. -/
def initMp : String → Option String
  | "sint32" => some "int32_t"
  | "sint64" => some "int64_t"
  | "fixed32" => some "uint32_t"
  | "fixed64" => some "uint64_t"
  | "sfixed32" => some "int32_t"
  | "sfixed64" => some "int64_t"
  | "bytes" => some "RPC::string"
  | "string" => some "RPC::string"
  | "double" => some "double"
  | "float" => some "float"
  | "int32" => some "int32_t"
  | "int64" => some "int64_t"
  | "uint32" => some "uint32_t"
  | "uint64" => some "uint64_t"
  | "bool" => some "bool"
  | _ => none

namespace GParser

/-- The constructor. -/
def init (firstIID : ℤ) : GParser M E := ⟨[], initMp, [], firstIID⟩

/-- `ans += …`. -/
def append (st : GParser M E) (c : Chunk M E) : GParser M E := { st with ans := st.ans ++ [c] }

/-- `mp.count(key)`. -/
def count (st : GParser M E) (key : String) : Bool := (st.mp key).isSome

/-- `parsered_msg.count(key)`. -/
def parsered (st : GParser M E) (key : String) : Bool := decide (key ∈ st.parseredMsg)

/-- `mp[key]=value`. -/
def assign (st : GParser M E) (key value : String) : GParser M E :=
  { st with mp := Function.update st.mp key (some value) }

/-- `mp[key]`, which enters an empty string for a key that is not there. -/
def lookup (st : GParser M E) (key : String) : String × GParser M E :=
  match st.mp key with
  | some value => (value, st)
  | none => ("", st.assign key "")

end GParser

/-- `add_enum_inside`. -/
def addEnumInside (F : FileDescriptor M E) (e : E) (st : GParser M E) : GParser M E :=
  (st.append (.type (.enum e))).assign (F.enumType e).name (F.enumType e).name

/-- The line of a field, from the type name that the map has for it. -/
def repOrNot (gfield : FieldDescriptor M E) (key : String) (st : GParser M E) :
    FieldLine M E × GParser M E :=
  (⟨gfield, (st.lookup key).1⟩, (st.lookup key).2)

/-- One round of the loop over the fields, the same in `parser_message` and `add_message_inside`
but for the test (`present`) whether the message of the field needs no struct of its own. -/
def field (F : FileDescriptor M E) (add : M → GParser M E → Option (GParser M E))
    (present : GParser M E → String → Bool) (gfield : FieldDescriptor M E) (st : GParser M E) :
    Option (FieldLine M E × GParser M E) :=
  let st? := match gfield.type with
    | .message m => if present st (F.message m).name then some st else add m st
    | .enum e => if st.count (F.enumType e).name then some st else some (addEnumInside F e st)
    | .scalar _ => some st
  st?.map (repOrNot gfield (F.nameOf gfield.type))

/-- The loop over the fields. -/
def fields (F : FileDescriptor M E) (add : M → GParser M E → Option (GParser M E))
    (present : GParser M E → String → Bool) :
    List (FieldDescriptor M E) → GParser M E → Option (List (FieldLine M E) × GParser M E)
  | [], st => some ([], st)
  | f :: fs, st => do
    let (line, st) ← field F add present f st
    let (lines, st) ← fields F add present fs st
    some (line :: lines, st)

/-- `none` when the calls go deeper than `fuel` levels. -/
def addMessageInside (F : FileDescriptor M E) : ℕ → M → GParser M E → Option (GParser M E)
  | 0, _, _ => none
  | fuel + 1, m, st => do
    let name := (F.message m).name
    let st := st.assign name name
    let (lines, st) ←
      fields F (addMessageInside F fuel) GParser.count (F.message m).fields st
    let st := st.append (.type (.message m ⟨lines, none⟩))
    some { st with parseredMsg := name :: st.parseredMsg }

variable [Fintype M]

/-- The loop of `parser_message` over fields. -/
def topFields (F : FileDescriptor M E) :
    List (FieldDescriptor M E) → GParser M E → Option (List (FieldLine M E) × GParser M E) :=
  fields F (addMessageInside F (Fintype.card M)) GParser.parsered

/-- A request or a response lists its fields. -/
def parserMessage (F : FileDescriptor M E) (m : M) (st : GParser M E) :
    Option (Body M E × GParser M E) := do
  let (lines, st) ← topFields F (F.message m).fields st
  some (⟨lines, some ((F.message m).fields.map FieldDescriptor.name)⟩, st)

/-- `fid` is the value of `FID_COUNT`. -/
def parserMethod (F : FileDescriptor M E) (fid : ℤ) (gmethod : MethodDescriptor M)
    (st : GParser M E) : Option (MethodText M E × GParser M E) := do
  let (request, st) ← parserMessage F gmethod.inputType st
  let (response, st) ← parserMessage F gmethod.outputType st
  some (⟨gmethod.name, fid, request, response⟩, st)

/-- The methods take the numbers from `fid` on. -/
def parserService (F : FileDescriptor M E) :
    List (MethodDescriptor M) → ℤ → GParser M E → Option (List (MethodText M E) × ℤ × GParser M E)
  | [], fid, st => some ([], fid, st)
  | k :: ks, fid, st => do
    let (text, st) ← parserMethod F fid k st
    let (texts, fid, st) ← parserService F ks (fid + 1) st
    some (text :: texts, fid, st)

/-- The struct of one service up to its methods. -/
def openService (s : ServiceDescriptor M) (st : GParser M E) : GParser M E :=
  { (st.append (.interface st.firstIID)).append (.openService s.name) with
    firstIID := st.firstIID + 1 }

/-- The types of the messages are appended while the methods are put together, so before them. -/
def parserBasedOnService (F : FileDescriptor M E) :
    List (ServiceDescriptor M) → ℤ → GParser M E → Option (GParser M E)
  | [], _, st => some st
  | s :: ss, fid, st => do
    let (texts, fid, st) ← parserService F s.methods fid (openService s st)
    parserBasedOnService F ss fid ((st.append (.methods texts)).append .closeService)

/-- `parser_file`. -/
def parserFile (F : FileDescriptor M E) (firstIID fid : ℤ) : Option (GParser M E) :=
  parserBasedOnService F F.services fid (.init firstIID)

/-! ## What the walk adds -/

section Grew

omit [Fintype M]

variable {F : FileDescriptor M E} {st st' st'' : GParser M E} {top : Set M}
  {ds ds' : List (TypeDecl M E)} {add : M → GParser M E → Option (GParser M E)}
  {present : GParser M E → String → Bool} {f : FieldDescriptor M E} {l : FieldLine M E}
  {fs : List (FieldDescriptor M E)} {ls : List (FieldLine M E)} {m : M} {fuel : ℕ}

/-- A declaration has one line for each field of its message, and lists none of them. -/
def TypeDecl.Faithful (F : FileDescriptor M E) : TypeDecl M E → Prop
  | message m body =>
    body.lines.map FieldLine.field = (F.message m).fields ∧ body.processFields = none
  | enum _ => True

/-- From `st` to `st'` the declarations `ds` were appended; only a message of `top` may have come
under a name that was in `mp`. -/
structure Grew (F : FileDescriptor M E) (top : Set M) (st : GParser M E)
    (ds : List (TypeDecl M E)) (st' : GParser M E) : Prop where
  ans : st'.ans = st.ans ++ ds.map .type
  faithful : ∀ d ∈ ds, d.Faithful F
  fresh : ∀ d ∈ ds, (∃ m ∈ top, d.type = .message m) ∨ st.mp (F.nameOf d.type) = none
  mp : ∀ x, st.mp x ≠ none → st'.mp x ≠ none
  parsered_mono : st.parseredMsg ⊆ st'.parseredMsg
  parsered : ∀ x ∈ st'.parseredMsg, x ∈ st.parseredMsg ∨ ∃ d ∈ ds, F.nameOf d.type = x

theorem Grew.refl (F : FileDescriptor M E) (top : Set M) (st : GParser M E) :
    Grew F top st [] st where
  ans := by simp
  faithful := by simp
  fresh := by simp
  mp := fun _ h => h
  parsered_mono := List.Subset.refl _
  parsered := fun _ h => Or.inl h

/-- Declarations of two walks in a row. -/
theorem Grew.trans (h : Grew F top st ds st') (h' : Grew F top st' ds' st'') :
    Grew F top st (ds ++ ds') st'' where
  ans := by rw [h'.ans, h.ans, List.map_append, List.append_assoc]
  faithful := by
    intro d hd
    rcases List.mem_append.mp hd with hd | hd
    · exact h.faithful d hd
    · exact h'.faithful d hd
  fresh := by
    intro d hd
    rcases List.mem_append.mp hd with hd | hd
    · exact h.fresh d hd
    · -- a name that is missing later was missing before
      refine (h'.fresh d hd).imp_right fun hnone => ?_
      by_contra hsome
      exact h.mp _ hsome hnone
  mp := fun x hx => h'.mp x (h.mp x hx)
  parsered_mono := List.Subset.trans h.parsered_mono h'.parsered_mono
  parsered := by
    intro x hx
    rcases h'.parsered x hx with hx | ⟨d, hd, rfl⟩
    · rcases h.parsered x hx with hx | ⟨d, hd, rfl⟩
      · exact Or.inl hx
      · exact Or.inr ⟨d, List.mem_append_left _ hd, rfl⟩
    · exact Or.inr ⟨d, List.mem_append_right _ hd, rfl⟩

theorem Grew.weaken {top' : Set M} (h : Grew F top st ds st')
    (htop : ∀ m ∈ top, m ∈ top' ∨ st.mp (F.message m).name = none) : Grew F top' st ds st' where
  ans := h.ans
  faithful := h.faithful
  fresh := by
    intro d hd
    rcases h.fresh d hd with ⟨m, hm, hdm⟩ | hnone
    · refine (htop m hm).imp (fun hm => ⟨m, hm, hdm⟩) fun hnone => ?_
      rw [hdm]
      exact hnone
    · exact Or.inr hnone
  mp := h.mp
  parsered_mono := h.parsered_mono
  parsered := h.parsered

@[simp] theorem GParser.assign_mp_self (st : GParser M E) (key value : String) :
    (st.assign key value).mp key = some value :=
  Function.update_self ..

theorem GParser.assign_mp_of_ne (st : GParser M E) (key value : String) {x : String}
    (h : x ≠ key) : (st.assign key value).mp x = st.mp x :=
  Function.update_of_ne h ..

/-- No key is removed. -/
theorem GParser.assign_mp_ne_none (st : GParser M E) (key value : String) {x : String}
    (h : st.mp x ≠ none) : (st.assign key value).mp x ≠ none := by
  by_cases hx : x = key
  · simp [hx]
  · rwa [st.assign_mp_of_ne key value hx]

/-- A lookup declares nothing. -/
theorem lookup_grew (F : FileDescriptor M E) (top : Set M) (st : GParser M E) (key : String) :
    Grew F top st [] (st.lookup key).2 := by
  unfold GParser.lookup
  split
  · exact .refl F top st
  · exact { Grew.refl F top st with mp := fun x hx => st.assign_mp_ne_none key "" hx }

theorem addEnumInside_grew {e : E} (h : st.mp (F.enumType e).name = none) :
    Grew F top st [.enum e] (addEnumInside F e st) where
  ans := rfl
  faithful := by
    intro d hd
    rw [List.mem_singleton.mp hd]
    trivial
  fresh := by
    intro d hd
    rw [List.mem_singleton.mp hd]
    exact Or.inr h
  mp := fun x hx => GParser.assign_mp_ne_none (st.append _) _ _ hx
  parsered_mono := List.Subset.refl _
  parsered := fun _ hx => Or.inl hx

/-- The three ways through a round of the loop: nothing to declare, a message, an enum. -/
theorem field_cases (h : field F add present f st = some (l, st')) :
    ∃ st₁, (l, st') = repOrNot f (F.nameOf f.type) st₁ ∧
      ((st₁ = st ∧ (∀ m, f.type = .message m → present st (F.message m).name = true) ∧
          ∀ e, f.type = .enum e → st.mp (F.enumType e).name ≠ none) ∨
        (∃ m, f.type = .message m ∧ present st (F.message m).name = false ∧ add m st = some st₁) ∨
        ∃ e, f.type = .enum e ∧ st.mp (F.enumType e).name = none ∧ st₁ = addEnumInside F e st) := by
  obtain ⟨st₁, hst, hline⟩ := Option.map_eq_some_iff.mp h
  refine ⟨st₁, hline.symm, ?_⟩
  cases htype : f.type with
  | scalar s =>
    rw [htype] at hst
    exact Or.inl ⟨(Option.some.inj hst).symm, by simp, by simp⟩
  | message m =>
    rw [htype] at hst
    dsimp only at hst
    by_cases hp : present st (F.message m).name = true
    · rw [if_pos hp] at hst
      refine Or.inl ⟨(Option.some.inj hst).symm, ?_, by simp⟩
      intro m' hm'
      obtain rfl := FieldType.message.inj hm'
      exact hp
    · rw [if_neg hp] at hst
      exact Or.inr (Or.inl ⟨m, rfl, by simpa using hp, hst⟩)
  | enum e =>
    rw [htype] at hst
    dsimp only at hst
    by_cases hc : st.count (F.enumType e).name = true
    · rw [if_pos hc] at hst
      refine Or.inl ⟨(Option.some.inj hst).symm, by simp, ?_⟩
      intro e' he'
      obtain rfl := FieldType.enum.inj he'
      exact Option.isSome_iff_ne_none.mp hc
    · rw [if_neg hc] at hst
      refine Or.inr (Or.inr ⟨e, rfl, ?_, (Option.some.inj hst).symm⟩)
      simpa [GParser.count] using hc

theorem field_line (h : field F add present f st = some (l, st')) : l.field = f := by
  obtain ⟨st₁, hline, -⟩ := field_cases h
  exact congrArg (fun r => r.1.field) hline

theorem fields_cons_some (h : fields F add present (f :: fs) st = some (ls, st')) :
    ∃ l ls' st₁, field F add present f st = some (l, st₁) ∧
      fields F add present fs st₁ = some (ls', st') ∧ ls = l :: ls' := by
  obtain ⟨⟨l, st₁⟩, hl, h⟩ := Option.bind_eq_some_iff.mp h
  obtain ⟨⟨ls', st₂⟩, hls, h⟩ := Option.bind_eq_some_iff.mp h
  obtain ⟨rfl, rfl⟩ := Prod.mk.inj (Option.some.inj h)
  exact ⟨l, ls', st₁, hl, hls, rfl⟩

/-- One line for each field, in order. -/
theorem fields_lines (h : fields F add present fs st = some (ls, st')) :
    ls.map FieldLine.field = fs := by
  induction fs generalizing st ls with
  | nil =>
    obtain ⟨rfl, rfl⟩ := Prod.mk.inj (Option.some.inj h)
    rfl
  | cons f fs ih =>
    obtain ⟨l, ls', st₁, hl, hls, rfl⟩ := fields_cons_some h
    rw [List.map_cons, field_line hl, ih hls]

/-- A round of the loop adds what `add` adds, when it is called. -/
theorem field_grew (h : field F add present f st = some (l, st'))
    (hadd : ∀ m st₁, f.type = .message m → present st (F.message m).name = false →
      add m st = some st₁ → ∃ ds, Grew F top st ds st₁) :
    ∃ ds, Grew F top st ds st' := by
  obtain ⟨st₁, hline, hst⟩ := field_cases h
  have hst' : st' = (st₁.lookup (F.nameOf f.type)).2 := congrArg Prod.snd hline
  have hlookup := lookup_grew F top st₁ (F.nameOf f.type)
  rw [← hst'] at hlookup
  rcases hst with ⟨rfl, -⟩ | ⟨m, hm, hp, hm₁⟩ | ⟨e, -, hnone, rfl⟩
  · exact ⟨[], hlookup⟩
  · obtain ⟨ds, hds⟩ := hadd m st₁ hm hp hm₁
    exact ⟨_, hds.trans hlookup⟩
  · exact ⟨_, (addEnumInside_grew hnone).trans hlookup⟩

/-- A loop grows as its calls do. -/
theorem fields_grew (h : fields F add present fs st = some (ls, st'))
    (hadd : ∀ f ∈ fs, ∀ m st st₁, f.type = .message m → present st (F.message m).name = false →
      add m st = some st₁ → ∃ ds, Grew F top st ds st₁) :
    ∃ ds, Grew F top st ds st' := by
  induction fs generalizing st ls with
  | nil =>
    obtain ⟨rfl, rfl⟩ := Prod.mk.inj (Option.some.inj h)
    exact ⟨[], .refl F top st⟩
  | cons f fs ih =>
    obtain ⟨l, ls', st₁, hl, hls, rfl⟩ := fields_cons_some h
    obtain ⟨ds, hds⟩ := field_grew hl fun m st₁ => hadd f List.mem_cons_self m st st₁
    obtain ⟨ds', hds'⟩ := ih hls fun f hf => hadd f (List.mem_cons_of_mem _ hf)
    exact ⟨_, hds.trans hds'⟩

theorem addMessageInside_succ_some (h : addMessageInside F (fuel + 1) m st = some st') :
    ∃ lines st₁, fields F (addMessageInside F fuel) GParser.count (F.message m).fields
        (st.assign (F.message m).name (F.message m).name) = some (lines, st₁) ∧
      st' = { st₁.append (.type (.message m ⟨lines, none⟩)) with
        parseredMsg := (F.message m).name :: st₁.parseredMsg } := by
  obtain ⟨⟨lines, st₁⟩, hlines, h⟩ := Option.bind_eq_some_iff.mp h
  exact ⟨lines, st₁, hlines, (Option.some.inj h).symm⟩

/-- `add_message_inside` declares its message, and below it only types with names that were not in
`mp`. -/
theorem addMessageInside_grew (h : addMessageInside F fuel m st = some st') :
    ∃ ds, Grew F {m} st ds st' ∧ (F.message m).name ∈ st'.parseredMsg := by
  induction fuel generalizing m st st' with
  | zero => exact absurd h (by simp [addMessageInside])
  | succ fuel ih =>
    obtain ⟨lines, st₁, hlines, rfl⟩ := addMessageInside_succ_some h
    obtain ⟨ds, hds⟩ : ∃ ds, Grew F ∅
        (st.assign (F.message m).name (F.message m).name) ds st₁ := by
      apply fields_grew hlines
      intro f _ m' st₂ st₃ _ hp hadd
      obtain ⟨ds, hds, -⟩ := ih hadd
      refine ⟨ds, hds.weaken ?_⟩
      rintro _ rfl
      exact Or.inr (by simpa [GParser.count] using hp)
    refine ⟨ds ++ [.message m ⟨lines, none⟩], ?_, List.mem_cons_self⟩
    constructor
    · simp [GParser.append, hds.ans, GParser.assign]
    · intro d hd
      rcases List.mem_append.mp hd with hd | hd
      · exact hds.faithful d hd
      · rw [List.mem_singleton.mp hd]
        exact ⟨fields_lines hlines, rfl⟩
    · intro d hd
      rcases List.mem_append.mp hd with hd | hd
      · refine Or.inr ?_
        by_contra hsome
        exact st.assign_mp_ne_none _ _ hsome ((hds.fresh d hd).resolve_left (by simp))
      · rw [List.mem_singleton.mp hd]
        exact Or.inl ⟨m, rfl, rfl⟩
    · exact fun x hx => hds.mp x (st.assign_mp_ne_none _ _ hx)
    · exact fun x hx => List.mem_cons_of_mem _ (hds.parsered_mono hx)
    · intro x hx
      rcases List.mem_cons.mp hx with rfl | hx
      · exact Or.inr ⟨_, List.mem_append_right _ (List.mem_singleton_self _), rfl⟩
      · rcases hds.parsered x hx with hx | ⟨d, hd, rfl⟩
        · exact Or.inl hx
        · exact Or.inr ⟨d, List.mem_append_left _ hd, rfl⟩

end Grew

/-! ## The generator returns -/

section Total

variable {F : FileDescriptor M E} {st st' : GParser M E} {fuel : ℕ}

/-- How many messages have names that are not in `mp`. -/
def unseen (F : FileDescriptor M E) (st : GParser M E) : ℕ :=
  (Finset.univ.filter fun m : M => st.mp (F.message m).name = none).card

/-- The map only grows. -/
theorem unseen_le (h : ∀ x, st.mp x ≠ none → st'.mp x ≠ none) : unseen F st' ≤ unseen F st := by
  apply Finset.card_le_card
  intro m hm
  rw [Finset.mem_filter_univ] at hm ⊢
  by_contra hsome
  exact h _ hsome hm

theorem unseen_assign_lt {m : M} {value : String} (h : st.mp (F.message m).name = none) :
    unseen F (st.assign (F.message m).name value) < unseen F st := by
  apply Finset.card_lt_card
  rw [Finset.ssubset_iff_of_subset]
  · refine ⟨m, by simpa using h, ?_⟩
    simp
  · intro m' hm'
    rw [Finset.mem_filter_univ] at hm' ⊢
    by_contra hsome
    exact st.assign_mp_ne_none _ _ hsome hm'

theorem unseen_assign_lt_card (m : M) (value : String) :
    unseen F (st.assign (F.message m).name value) < Fintype.card M := by
  apply Finset.card_lt_univ_of_notMem (x := m)
  simp

omit [Fintype M] in
/-- The loop ends if every call of `add` in it does; `P` is what the calls need. -/
theorem fields_total {add : M → GParser M E → Option (GParser M E)}
    {present : GParser M E → String → Bool} (P : GParser M E → Prop)
    (hP : ∀ st f l st', P st → field F add present f st = some (l, st') → P st')
    (hadd : ∀ m st, P st → present st (F.message m).name = false → ∃ st', add m st = some st')
    (fs : List (FieldDescriptor M E)) (h : P st) :
    ∃ ls st', fields F add present fs st = some (ls, st') := by
  induction fs generalizing st with
  | nil => exact ⟨[], st, rfl⟩
  | cons f fs ih =>
    obtain ⟨⟨l, st₁⟩, hl⟩ : ∃ r, field F add present f st = some r := by
      unfold field
      dsimp only
      cases f.type with
      | scalar s => exact ⟨_, rfl⟩
      | message m =>
        dsimp only
        by_cases hp : present st (F.message m).name = true
        · rw [if_pos hp]
          exact ⟨_, rfl⟩
        · obtain ⟨st', hst'⟩ := hadd m st h (by simpa using hp)
          rw [if_neg hp, hst']
          exact ⟨_, rfl⟩
      | enum e =>
        dsimp only
        by_cases hc : st.count (F.enumType e).name = true
        · rw [if_pos hc]
          exact ⟨_, rfl⟩
        · rw [if_neg hc]
          exact ⟨_, rfl⟩
    obtain ⟨ls, st', hls⟩ := ih (hP st f l st₁ h hl)
    refine ⟨l :: ls, st', ?_⟩
    rw [fields, hl]
    exact congrArg (Option.bind · _) hls

/-- Each call of `add_message_inside` below another enters a name that was missing. -/
theorem addMessageInside_total {m : M}
    (h : unseen F (st.assign (F.message m).name (F.message m).name) < fuel) :
    ∃ st', addMessageInside F fuel m st = some st' := by
  induction fuel generalizing m st with
  | zero => exact absurd h (Nat.not_lt_zero _)
  | succ fuel ih =>
    obtain ⟨ls, st₁, hls⟩ : ∃ ls st₁, fields F (addMessageInside F fuel) GParser.count
        (F.message m).fields (st.assign (F.message m).name (F.message m).name)
          = some (ls, st₁) := by
      apply fields_total fun st => unseen F st ≤ fuel
      · intro st f l st' hst hl
        obtain ⟨ds, hds⟩ : ∃ ds, Grew F Set.univ st ds st' := by
          apply field_grew hl
          intro m' st₂ _ _ hadd
          obtain ⟨ds, hds, -⟩ := addMessageInside_grew hadd
          exact ⟨ds, hds.weaken fun m _ => Or.inl (Set.mem_univ m)⟩
        exact (unseen_le hds.mp).trans hst
      · intro m' st hst hp
        apply ih
        exact (unseen_assign_lt (by simpa [GParser.count] using hp)).trans_le hst
      · exact Nat.lt_succ_iff.mp h
    rw [addMessageInside, hls]
    exact ⟨_, rfl⟩

/-- The fuel of `topFields` is enough. -/
theorem topFields_total (F : FileDescriptor M E) (fs : List (FieldDescriptor M E))
    (st : GParser M E) : ∃ ls st', topFields F fs st = some (ls, st') :=
  fields_total (fun _ => True) (fun _ _ _ _ _ _ => trivial)
    (fun m _ _ _ => addMessageInside_total (unseen_assign_lt_card m _)) fs trivial

theorem parserMessage_total (F : FileDescriptor M E) (m : M) (st : GParser M E) :
    ∃ body st', parserMessage F m st = some (body, st') := by
  obtain ⟨ls, st', h⟩ := topFields_total F (F.message m).fields st
  rw [parserMessage, h]
  exact ⟨_, _, rfl⟩

theorem parserService_total (F : FileDescriptor M E) (ks : List (MethodDescriptor M)) (fid : ℤ)
    (st : GParser M E) : ∃ texts fid' st', parserService F ks fid st = some (texts, fid', st') := by
  induction ks generalizing fid st with
  | nil => exact ⟨[], fid, st, rfl⟩
  | cons k ks ih =>
    obtain ⟨req, st₁, h₁⟩ := parserMessage_total F k.inputType st
    obtain ⟨resp, st₂, h₂⟩ := parserMessage_total F k.outputType st₁
    obtain ⟨texts, fid', st', h⟩ := ih (fid + 1) st₂
    have hk : parserMethod F fid k st = some (⟨k.name, fid, req, resp⟩, st₂) := by
      rw [parserMethod, h₁]
      exact congrArg (Option.bind · _) h₂
    refine ⟨⟨k.name, fid, req, resp⟩ :: texts, fid', st', ?_⟩
    rw [parserService, hk]
    exact congrArg (Option.bind · _) h

theorem parserBasedOnService_total (F : FileDescriptor M E) (ss : List (ServiceDescriptor M))
    (fid : ℤ) (st : GParser M E) : ∃ st', parserBasedOnService F ss fid st = some st' := by
  induction ss generalizing fid st with
  | nil => exact ⟨st, rfl⟩
  | cons s ss ih =>
    obtain ⟨texts, fid', st₁, h⟩ := parserService_total F s.methods fid (openService s st)
    obtain ⟨st', hst'⟩ := ih fid' ((st₁.append (.methods texts)).append .closeService)
    refine ⟨st', ?_⟩
    rw [parserBasedOnService, h]
    exact hst'

/-- The generator returns. -/
theorem parserFile_isSome (F : FileDescriptor M E) (firstIID fid : ℤ) :
    (parserFile F firstIID fid).isSome :=
  Option.isSome_iff_exists.mpr (parserBasedOnService_total F _ fid _)

end Total

/-- The parser after `parser_file`, from the first interface number and the value of `FID_COUNT`. -/
def generate (F : FileDescriptor M E) (firstIID fid : ℤ) : GParser M E :=
  (parserFile F firstIID fid).get (parserFile_isSome F firstIID fid)

theorem parserFile_eq_generate (F : FileDescriptor M E) (firstIID fid : ℤ) :
    parserFile F firstIID fid = some (generate F firstIID fid) :=
  (Option.some_get _).symm

def GParser.text (F : FileDescriptor M E) (st : GParser M E) : String :=
  String.join (st.ans.map (Chunk.text F))

/-! ## The fields of the requests and responses -/

section Services

variable {F : FileDescriptor M E} {st st' : GParser M E} {s : ServiceDescriptor M}
  {fs fs' : List (FieldDescriptor M E)} {ls : List (FieldLine M E)} {fid fid' : ℤ}
  {ks : List (MethodDescriptor M)} {texts : List (MethodText M E)}

/-- The fields that `parser_message` goes through for the methods, in its order. -/
def FileDescriptor.bodyFields (F : FileDescriptor M E) (ks : List (MethodDescriptor M)) :
    List (FieldDescriptor M E) :=
  ks.flatMap fun k => (F.message k.inputType).fields ++ (F.message k.outputType).fields

def MethodText.lines (k : MethodText M E) : List (FieldLine M E) :=
  k.request.lines ++ k.response.lines

omit [Fintype M] in
theorem fields_append_some {add : M → GParser M E → Option (GParser M E)}
    {present : GParser M E → String → Bool} :
    fields F add present (fs ++ fs') st = some (ls, st') ↔
      ∃ ls₁ st₁ ls₂, fields F add present fs st = some (ls₁, st₁) ∧
        fields F add present fs' st₁ = some (ls₂, st') ∧ ls = ls₁ ++ ls₂ := by
  induction fs generalizing st ls with
  | nil =>
    constructor
    · intro h
      exact ⟨[], st, ls, rfl, h, rfl⟩
    · rintro ⟨ls₁, st₁, ls₂, h₁, h₂, rfl⟩
      obtain ⟨rfl, rfl⟩ := Prod.mk.inj (Option.some.inj h₁)
      exact h₂
  | cons f fs ih =>
    constructor
    · intro h
      obtain ⟨l, ls', st₁, hl, hls, rfl⟩ := fields_cons_some h
      obtain ⟨ls₁, st₂, ls₂, h₁, h₂, rfl⟩ := ih.mp hls
      refine ⟨l :: ls₁, st₂, ls₂, ?_, h₂, rfl⟩
      rw [fields, hl]
      exact congrArg (Option.bind · _) h₁
    · rintro ⟨ls₁, st₁, ls₂, h₁, h₂, rfl⟩
      obtain ⟨l, ls', st₂, hl, hls, rfl⟩ := fields_cons_some h₁
      rw [List.cons_append, fields, hl]
      exact congrArg (Option.bind · _) (ih.mpr ⟨ls', st₁, ls₂, hls, h₂, rfl⟩)

theorem parserMessage_some {m : M} {body : Body M E}
    (h : parserMessage F m st = some (body, st')) :
    topFields F (F.message m).fields st = some (body.lines, st') ∧
      body.listed = body.lines.map fun l => l.field.name := by
  obtain ⟨⟨lines, st₁⟩, hlines, h⟩ := Option.bind_eq_some_iff.mp h
  obtain ⟨rfl, rfl⟩ := Prod.mk.inj (Option.some.inj h)
  refine ⟨hlines, ?_⟩
  rw [← fields_lines hlines, List.map_map]
  rfl

/-- The whole loop of `parser_service` is one loop over the fields of its messages. -/
theorem parserService_some (h : parserService F ks fid st = some (texts, fid', st')) :
    topFields F (F.bodyFields ks) st = some (texts.flatMap MethodText.lines, st') ∧
      texts.map MethodText.name = ks.map MethodDescriptor.name ∧
      ∀ k ∈ texts, ∀ body ∈ [k.request, k.response],
        body.listed = body.lines.map fun l => l.field.name := by
  induction ks generalizing fid st texts with
  | nil =>
    obtain ⟨rfl, hpair⟩ := Prod.mk.inj (Option.some.inj h)
    obtain ⟨-, rfl⟩ := Prod.mk.inj hpair
    exact ⟨rfl, rfl, by simp⟩
  | cons k ks ih =>
    obtain ⟨⟨text, st₁⟩, hk, h⟩ := Option.bind_eq_some_iff.mp h
    obtain ⟨⟨texts', fid₁, st₂⟩, hks, h⟩ := Option.bind_eq_some_iff.mp h
    obtain ⟨rfl, hpair⟩ := Prod.mk.inj (Option.some.inj h)
    obtain ⟨rfl, rfl⟩ := Prod.mk.inj hpair
    obtain ⟨⟨request, st₃⟩, hreq, hk⟩ := Option.bind_eq_some_iff.mp hk
    obtain ⟨⟨response, st₄⟩, hresp, hk⟩ := Option.bind_eq_some_iff.mp hk
    obtain ⟨rfl, rfl⟩ := Prod.mk.inj (Option.some.inj hk)
    obtain ⟨hreq, hreq_listed⟩ := parserMessage_some hreq
    obtain ⟨hresp, hresp_listed⟩ := parserMessage_some hresp
    obtain ⟨hrest, hnames, hlisted⟩ := ih hks
    refine ⟨?_, by rw [List.map_cons, List.map_cons, hnames], ?_⟩
    · exact fields_append_some.mpr
        ⟨_, _, _, fields_append_some.mpr ⟨_, _, _, hreq, hresp, rfl⟩, hrest, rfl⟩
    · intro text htext body hbody
      rcases List.mem_cons.mp htext with rfl | htext
      · rcases List.mem_pair.mp hbody with rfl | rfl
        · exact hreq_listed
        · exact hresp_listed
      · exact hlisted text htext body hbody

theorem topFields_grew (h : topFields F fs st = some (ls, st')) :
    ∃ ds, Grew F {m | .message m ∈ fs.map FieldDescriptor.type} st ds st' := by
  apply fields_grew h
  intro f hf m st₁ st₂ hm _ hadd
  obtain ⟨ds, hds, -⟩ := addMessageInside_grew hadd
  refine ⟨ds, hds.weaken ?_⟩
  rintro _ rfl
  refine Or.inl ?_
  rw [Set.mem_ofPred_eq, ← hm]
  exact List.mem_map_of_mem hf

theorem parserBasedOnService_cons_some {ss : List (ServiceDescriptor M)}
    (h : parserBasedOnService F (s :: ss) fid st = some st') :
    ∃ texts fid₁ st₁, parserService F s.methods fid (openService s st) = some (texts, fid₁, st₁) ∧
      parserBasedOnService F ss fid₁ ((st₁.append (.methods texts)).append .closeService)
        = some st' := by
  obtain ⟨⟨texts, fid₁, st₁⟩, htexts, h⟩ := Option.bind_eq_some_iff.mp h
  exact ⟨texts, fid₁, st₁, htexts, h⟩

/-- What the generator appends: declarations with one line for each field, and methods whose
requests and responses list all their fields. -/
def Chunk.Faithful (F : FileDescriptor M E) : Chunk M E → Prop
  | type d => d.Faithful F
  | methods texts => ∀ k ∈ texts, ∀ body ∈ [k.request, k.response],
      body.listed = body.lines.map fun l => l.field.name
  | _ => True

theorem parserBasedOnService_faithful {ss : List (ServiceDescriptor M)}
    (h : parserBasedOnService F ss fid st = some st') (hst : ∀ c ∈ st.ans, c.Faithful F) :
    ∀ c ∈ st'.ans, c.Faithful F := by
  induction ss generalizing fid st with
  | nil =>
    obtain rfl := Option.some.inj h
    exact hst
  | cons s ss ih =>
    obtain ⟨texts, fid₁, st₁, htexts, h⟩ := parserBasedOnService_cons_some h
    obtain ⟨hfields, -, hlisted⟩ := parserService_some htexts
    obtain ⟨ds, hds⟩ := topFields_grew hfields
    apply ih h
    simp only [GParser.append, hds.ans, openService, List.forall_mem_append, List.forall_mem_map,
      List.forall_mem_singleton]
    exact ⟨⟨⟨⟨⟨hst, trivial⟩, trivial⟩, hds.faithful⟩, hlisted⟩, trivial⟩

/-- Every piece of the output. -/
theorem generate_faithful (F : FileDescriptor M E) (firstIID fid : ℤ) :
    ∀ c ∈ (generate F firstIID fid).ans, c.Faithful F :=
  parserBasedOnService_faithful (parserFile_eq_generate F firstIID fid) (by simp [GParser.init])

end Services

/-! ## Listing the fields for serialization -/

/-- A field of type `τ'` in the message `τ`. -/
def Step (F : FileDescriptor M E) (τ τ' : FieldType M E) : Prop :=
  ∃ m, τ = .message m ∧ ∃ f ∈ (F.message m).fields, f.type = τ'

/-- The type occurs at some depth in a request or response of the service. -/
def Reached (F : FileDescriptor M E) (s : ServiceDescriptor M) (τ : FieldType M E) : Prop :=
  ∃ f ∈ F.bodyFields s.methods, Relation.ReflTransGen (Step F) f.type τ

/-- A string, bytes, repeated or message field (a group is a message). -/
def FieldDescriptor.variableLength (f : FieldDescriptor M E) : Bool :=
  f.repeated || match f.type with
    | .scalar .string | .scalar .bytes | .scalar .group | .message _ => true
    | _ => false

/-- Every struct of a nested message lists the fields of variable length, and there is one. -/
def NestedFieldsListed (F : FileDescriptor M E) (firstIID fid : ℤ) : Prop :=
  ∀ s ∈ F.services, ∀ m, Reached F s (.message m) →
    ∀ f ∈ (F.message m).fields, f.variableLength = true →
      (∀ body, .type (.message m body) ∈ (generate F firstIID fid).ans → f.name ∈ body.listed) ∧
      ∃ body, .type (.message m body) ∈ (generate F firstIID fid).ans ∧ f.name ∈ body.listed

/-- A struct of a nested message lists none of its fields. -/
theorem nested_listed_eq_nil (F : FileDescriptor M E) (firstIID fid : ℤ) {m : M} {body : Body M E}
    (h : .type (.message m body) ∈ (generate F firstIID fid).ans) : body.listed = [] := by
  rw [Body.listed, (generate_faithful F firstIID fid _ h).2]
  rfl

/-- The fields of the nested messages are listed just if none of them has a variable length. -/
theorem nested_fields_listed_iff (F : FileDescriptor M E) (firstIID fid : ℤ) :
    NestedFieldsListed F firstIID fid ↔
      ∀ s ∈ F.services, ∀ m, Reached F s (.message m) →
        ∀ f ∈ (F.message m).fields, f.variableLength = false := by
  constructor
  · intro h s hs m hm f hf
    by_contra hvar
    rw [Bool.not_eq_false] at hvar
    obtain ⟨-, body, hbody, hlisted⟩ := h s hs m hm f hf hvar
    rw [nested_listed_eq_nil F firstIID fid hbody] at hlisted
    exact List.not_mem_nil hlisted
  · intro h s hs m hm f hf hvar
    rw [h s hs m hm f hf] at hvar
    exact absurd hvar Bool.false_ne_true

/-- Part of `test.proto`: the options of a nested message hold a `bytes` field. -/
def sampleProto : FileDescriptor (Fin 4) (Fin 0) where
  message
    | 0 => ⟨"FlatLogFileFlushChunkRequestPB",
        [⟨"Data", false, .scalar .bytes⟩, ⟨"OpenChunkOptions", false, .message 1⟩]⟩
    | 1 => ⟨"AccelerateOpenOptionsPB", [⟨"ChunkOptions", false, .message 2⟩]⟩
    | 2 => ⟨"ChunkOptionsPB",
        [⟨"FTTType", false, .scalar .int32⟩, ⟨"Placement", false, .scalar .bytes⟩]⟩
    | 3 => ⟨"FlatLogFileFlushChunkResponsePB", [⟨"Errorcode", false, .scalar .int32⟩]⟩
  enumType := nofun
  services := [⟨"geete", [⟨"SayHelloAll", 0, 3⟩], by decide⟩]

example : (generate sampleProto 0 0).text sampleProto =
    "struct P2P_Interface\n\x7b\n\tconst static uint32_t IID = 0;\n\x7d;\n" ++
    "struct geete: public P2P_Interface \x7b\n" ++
    "\tstruct ChunkOptionsPB \x7b\n" ++
    "\t\t\tint32_t FTTType;\n\t\t\tRPC::string Placement;\n\t\x7d;\n" ++
    "\tstruct AccelerateOpenOptionsPB \x7b\n\t\t\tChunkOptionsPB ChunkOptions;\n\t\x7d;\n" ++
    "\tstruct SayHelloAll \x7b\n\t\tconst static uint32_t FID = 0;\n" ++
    "\t\tstruct request: public RPC::message\x7b\n\t\t\tRPC::string Data;\n" ++
    "\t\t\tAccelerateOpenOptionsPB OpenChunkOptions;\n" ++
    "\t\t\tPROCESS_FIELDS(Data,OpenChunkOptions);\n\t\t\x7d;\n" ++
    "\t\tstruct response: public RPC::message\x7b\n" ++
    "\t\t\tint32_t Errorcode;\n\t\t\tPROCESS_FIELDS(Errorcode);\n\t\t\x7d;\n\t\x7d;\n\x7d\n" := by
  decide +kernel

theorem placement_not_listed : ¬ NestedFieldsListed sampleProto 0 0 := by
  intro h
  have hreach : Reached sampleProto (sampleProto.services.get ⟨0, by decide⟩) (.message 2) := by
    refine ⟨⟨"OpenChunkOptions", false, .message 1⟩, by decide, ?_⟩
    exact Relation.ReflTransGen.single ⟨1, rfl, ⟨"ChunkOptions", false, .message 2⟩, by decide, rfl⟩
  obtain ⟨-, body, hbody, hlisted⟩ := h _ (List.get_mem _ _) 2 hreach
    ⟨"Placement", false, .scalar .bytes⟩ (by decide) rfl
  rw [nested_listed_eq_nil sampleProto 0 0 hbody] at hlisted
  exact List.not_mem_nil hlisted

end HuiRpc.Proto
