import WireSchema.Proofs.Tool.RoundTrip

/-!
# Texts that are encoded and decoded again

A text may leave out fields, give its members in any order and give them twice, and spell bytes in
many ways. What is decoded from its encoding is the completion of its value, which has exactly the
content fields in wire order, and nothing that the text said is lost.

* `Schema.complete` is the completion.
* `Json.at?` is the value at the end of a path into a value.
* `Schema.decodeText_of_encodeText`: what is encoded is decoded to its completion, which has a value
  at the end of every path of the text.
-/

namespace WireSchema

/-! ### Paths -/

namespace Json

/-- A step into a value: to the member of a name, or to an item. -/
inductive Step where
  | key (name : String)
  | index (i : Nat)

/-- The value at the end of a path. Of the members with one name, the last counts. -/
def at? : Json → List Step → Option Json
  | v, [] => some v
  | object members, .key name :: path => (member? members name).bind fun v => v.at? path
  | array items, .index i :: path => items[i]?.bind fun v => v.at? path
  | _, _ :: _ => none

@[simp] theorem at?_nil (v : Json) : v.at? [] = some v := by
  cases v <;> rfl

/-- Every path into the first value is one into the second. -/
def Keeps (v w : Json) : Prop := ∀ path, (v.at? path).isSome → (w.at? path).isSome

theorem Keeps.refl (v : Json) : v.Keeps v := fun _ h => h

/-- A string holds nothing further. -/
theorem keeps_of_string (text : String) (w : Json) : (string text).Keeps w := by
  intro path h
  cases path with
  | nil => simp
  | cons step path =>
    cases step with
    | key name => cases h
    | index i => cases h

end Json

/-! ### Completions -/

namespace Complete

/-- The bytes of a hexadecimal text. -/
def bytesOf (v : Json) : Bytes := (v.asString?.bind Hex.decode?).getD []

/-- What an absent field is taken for. -/
def absent : FieldKind → Json
  | .scalar _ => .uint 0
  | .fixedBlob _ => .string ""
  | .variableBlob _ => .string ""
  | .embedded _ => .object []
  | .repeated .. => .array []
  -- a derived field is no content
  | .derived .. => .uint 0

/-- The completion of an item, from that of the structures. -/
def item (nested : String → Json → Json) : Element → Json → Json
  | .struct type, v => nested type v
  | .scalar _, v => v
  | .blob size, v => .string (Hex.encode (Canonical.fill size (bytesOf v)))

/-- The completion of the content of a field, from that of the structures. -/
def content (nested : String → Json → Json) : FieldKind → Json → Json
  | .fixedBlob size, v => .string (Hex.encode (Canonical.fill size (bytesOf v)))
  | .variableBlob _, v => .string (Hex.encode (bytesOf v))
  | .embedded type, v => nested type v
  | .repeated element _, .array items => .array (items.map (item nested element))
  | _, v => v

section

variable (nested : String → Json → Json) (size : Nat) (v : Json)

@[simp] theorem item_blob :
    item nested (.blob size) v = .string (Hex.encode (Canonical.fill size (bytesOf v))) := rfl

@[simp] theorem content_fixedBlob :
    content nested (.fixedBlob size) v = .string (Hex.encode (Canonical.fill size (bytesOf v))) :=
  rfl

@[simp] theorem content_variableBlob (sizeField : String) :
    content nested (.variableBlob sizeField) v = .string (Hex.encode (bytesOf v)) := rfl

end

/-- The completion of a field. -/
def field (nested : String → Json → Json) (members : List (String × Json)) (f : Field) :
    String × Json :=
  (f.name, content nested f.kind ((Json.member? members f.name).getD (absent f.kind)))

/-- The completion of a value of a structure: the content fields, in order. -/
def record (nested : String → Json → Json) (s : Structure) : Json → Json
  | .object members => .object ((s.fields.filter (·.isContent)).map (field nested members))
  | v => v

end Complete

/-- The completion of a value of the structure `name`. -/
def Schema.complete (schema : Schema) (name : String) (v : Json) : Json :=
  interpret (fun _ v => v) Complete.record schema.structures name v

/-! ### Fields that are taken from an object -/

namespace OfJson

variable {nested : String → Json → Except ValueError Record} {s : Structure} {f : Field}
  {members : List (String × Json)} {fs : List Field} {r : Record}

/-- What is given for a content field is content. -/
theorem content_eq_some (hf : f.isContent) {v : Json} {x : Option Value}
    (h : content nested s f v = .ok x) : ∃ y, x = some y := by
  unfold content at h
  cases hk : f.kind with
  | derived => simp [Field.isContent, hk] at hf
  | repeated element cardinality =>
    rw [hk] at h
    cases v with
    | array items =>
      obtain ⟨xs, -, hx⟩ := bind_eq_ok_iff.1 h
      exact ⟨_, (pure_eq_ok_iff.1 hx).symm⟩
    | _ => cases h
  | _ =>
    rw [hk] at h
    obtain ⟨y, -, hx⟩ := bind_eq_ok_iff.1 h
    exact ⟨_, (pure_eq_ok_iff.1 hx).symm⟩

/-- A field that is given is taken from its content. -/
theorem exists_of_fields_cons {rest : List Field} (hf : f.isContent) {v : Json}
    (hv : Json.member? members f.name = some v)
    (h : fields nested s members (f :: rest) = .ok r) :
    ∃ x others, content nested s f v = .ok (some x) ∧ fields nested s members rest = .ok others ∧
      r = (f.name, x) :: others := by
  have h' := h
  unfold fields at h'
  rw [hv] at h'
  obtain ⟨first, hfirst, -⟩ := bind_eq_ok_iff.1 h'
  obtain ⟨x, rfl⟩ := content_eq_some hf hfirst
  rw [fields_of_given hv hfirst] at h
  obtain ⟨others, hothers, hr⟩ := bind_eq_ok_iff.1 h
  exact ⟨x, others, hfirst, hothers, (pure_eq_ok_iff.1 hr).symm⟩

/-- The content fields that are given are taken, in the order of the fields. -/
theorem names_eq_of_fields (h : fields nested s members fs = .ok r) :
    r.names = (fs.filter fun f => f.isContent && (Json.member? members f.name).isSome).map
      (·.name) := by
  induction fs generalizing r with
  | nil =>
    cases h
    rfl
  | cons f rest ih =>
    by_cases hf : f.isContent
    · cases hv : Json.member? members f.name with
      | none =>
        rw [fields_of_absent hv] at h
        rw [ih h, List.filter_cons_of_neg (by simp [hv])]
      | some v =>
        obtain ⟨x, others, -, hothers, rfl⟩ := exists_of_fields_cons hf hv h
        rw [List.filter_cons_of_pos (by simp [hf, hv]), List.map_cons, ← ih hothers]
        rfl
    · rw [fields_of_derived hf] at h
      rw [ih h, List.filter_cons_of_neg (by simp [hf])]

/-- Only fields are taken. -/
theorem names_of_fields (h : fields nested s members fs = .ok r) :
    ∀ name ∈ r.names, name ∈ fs.map (·.name) := by
  rw [names_eq_of_fields h]
  exact fun name hname => (List.filter_sublist.map _).subset hname

/-- What is taken for a content field is what is given for it, or nothing. -/
theorem get?_of_fields (h : fields nested s members fs = .ok r) (hfs : (fs.map (·.name)).Nodup)
    (hf : f ∈ fs) (hcontent : f.isContent) :
    (Json.member? members f.name = none ∧ r.get? f.name = none) ∨
      ∃ v x, Json.member? members f.name = some v ∧ content nested s f v = .ok (some x) ∧
        r.get? f.name = some x := by
  induction fs generalizing r with
  | nil => cases hf
  | cons g rest ih =>
    obtain ⟨hg, hrest⟩ := List.nodup_cons.1 hfs
    rcases List.mem_cons.1 hf with rfl | hf
    · cases hv : Json.member? members f.name with
      | none =>
        rw [fields_of_absent hv] at h
        refine .inl ⟨rfl, (Record.get?_eq_none_iff r f.name).2 fun hmem => hg ?_⟩
        exact names_of_fields h f.name hmem
      | some v =>
        obtain ⟨x, others, hx, -, rfl⟩ := exists_of_fields_cons hcontent hv h
        exact .inr ⟨v, x, rfl, hx, by simp [Record.get?]⟩
    · have hne : g.name ≠ f.name := by
        intro heq
        exact hg (List.mem_map.2 ⟨f, hf, heq.symm⟩)
      by_cases hgcontent : g.isContent
      · cases hv : Json.member? members g.name with
        | none =>
          rw [fields_of_absent hv] at h
          exact ih h hrest hf
        | some v =>
          obtain ⟨x, others, -, hothers, rfl⟩ := exists_of_fields_cons hgcontent hv h
          have hget : Record.get? ((g.name, x) :: others) f.name = others.get? f.name := by
            rw [Record.get?, if_neg hne]
          rw [hget]
          exact ih hothers hrest hf
      · rw [fields_of_derived hgcontent] at h
        exact ih h hrest hf

/-- Nothing is taken from an empty object. -/
theorem record_empty : record nested s (.object []) = .ok [] := by
  have hfields (fs : List Field) : fields nested s [] fs = .ok [] := by
    induction fs with
    | nil => rfl
    | cons f rest ih => rw [fields_of_absent rfl, ih]
  refine record_eq_ok_iff.2 ⟨[], rfl, ?_, hfields s.fields⟩
  intro m hm
  cases hm

end OfJson

/-- An empty object is a value of every structure. -/
theorem interpret_empty {structures : List Structure} {type : String}
    (h : (findStructure? structures type).isSome) :
    interpret (fun name _ => .error (.unknownStructure name)) OfJson.record structures type
      (.object []) = .ok [] := by
  induction structures with
  | nil => cases h
  | cons s below ih =>
    by_cases hname : s.name = type
    · subst hname
      rw [interpret_head]
      exact OfJson.record_empty
    · rw [findStructure?_cons, if_neg hname] at h
      rw [interpret_tail _ _ _ hname]
      exact ih h

/-! ### Canonical forms are shown as completions -/

namespace Complete

/-- The canonical form of what is taken from a value is shown as the completion of the value, and
the completion has all that the value has. -/
def Completes (ofJson : String → Json → Except ValueError Record)
    (canonical : String → Record → Record) (complete : String → Json → Json) : Prop :=
  ∀ type v r, ofJson type v = .ok r →
    (canonical type r).toJson = complete type v ∧ v.Keeps (complete type v)

section

variable {ofJson : String → Json → Except ValueError Record}
  {canonical : String → Record → Record} {complete : String → Json → Json}
  {below : List Structure} {s : Structure} {f : Field} {r : Record}

theorem bytesOf_string {text : String} {data : Bytes} (h : Hex.decode? text = some data) :
    bytesOf (.string text) = data := by
  simp [bytesOf, Json.asString?, h]

theorem Completes.item (hc : Completes ofJson canonical complete) {element : Element} {v : Json}
    {x : Value} (h : OfJson.item ofJson s f v element = .ok x) :
    (Canonical.item canonical element x).toJson = Complete.item complete element v ∧
      v.Keeps (Complete.item complete element v) := by
  cases element with
  | struct type =>
    obtain ⟨r, hr, hx⟩ := bind_eq_ok_iff.1 h
    rw [← pure_eq_ok_iff.1 hx]
    exact hc type v r hr
  | scalar width =>
    obtain ⟨n, rfl, rfl⟩ := OfJson.uint_eq_ok_iff.1 h
    exact ⟨rfl, .refl _⟩
  | blob size =>
    obtain ⟨text, data, rfl, hdata, rfl⟩ := OfJson.blob_eq_ok_iff.1 h
    rw [item_blob, bytesOf_string hdata]
    exact ⟨rfl, Json.keeps_of_string text _⟩

theorem Completes.items (hc : Completes ofJson canonical complete) {element : Element}
    {items : List Json} {xs : List Value}
    (h : List.Forall₂ (fun v x => OfJson.item ofJson s f v element = .ok x) items xs) :
    (Value.list (xs.map (Canonical.item canonical element))).toJson =
        .array (items.map (Complete.item complete element)) ∧
      (Json.array items).Keeps (.array (items.map (Complete.item complete element))) := by
  constructor
  · unfold Value.toJson
    rw [Value.itemsOf_eq_map, List.map_map]
    refine congrArg Json.array ?_
    induction h with
    | nil => rfl
    | cons hx _ ih =>
      rw [List.map_cons, List.map_cons, ih]
      exact congrArg (· :: _) (hc.item hx).1
  · intro path hpath
    cases path with
    | nil => simp
    | cons step path =>
      cases step with
      | key name => cases hpath
      | index i =>
        unfold Json.at? at hpath ⊢
        rw [List.getElem?_map]
        cases hv : items[i]? with
        | none =>
          rw [hv] at hpath
          cases hpath
        | some v =>
          rw [hv] at hpath
          obtain ⟨x, -, hx⟩ := exists_mem_of_forall₂ h (List.mem_of_getElem? hv)
          exact (hc.item hx).2 path hpath

theorem Completes.content (hc : Completes ofJson canonical complete) {v : Json} {x : Value}
    (h : OfJson.content ofJson s f v = .ok (some x)) :
    (Canonical.content canonical f.kind x).toJson = Complete.content complete f.kind v ∧
      v.Keeps (Complete.content complete f.kind v) := by
  unfold OfJson.content at h
  cases hk : f.kind with
  | derived =>
    rw [hk] at h
    cases h
  | scalar width =>
    rw [hk] at h
    obtain ⟨y, hy, hx⟩ := bind_eq_ok_iff.1 h
    obtain ⟨n, rfl, rfl⟩ := OfJson.uint_eq_ok_iff.1 hy
    cases hx
    exact ⟨rfl, .refl _⟩
  | fixedBlob size =>
    rw [hk] at h
    obtain ⟨y, hy, hx⟩ := bind_eq_ok_iff.1 h
    obtain ⟨text, data, rfl, hdata, rfl⟩ := OfJson.blob_eq_ok_iff.1 hy
    cases hx
    rw [content_fixedBlob, bytesOf_string hdata]
    exact ⟨rfl, Json.keeps_of_string text _⟩
  | variableBlob sizeField =>
    rw [hk] at h
    obtain ⟨y, hy, hx⟩ := bind_eq_ok_iff.1 h
    obtain ⟨text, data, rfl, hdata, rfl⟩ := OfJson.blob_eq_ok_iff.1 hy
    cases hx
    rw [content_variableBlob, bytesOf_string hdata]
    exact ⟨rfl, Json.keeps_of_string text _⟩
  | embedded type =>
    rw [hk] at h
    obtain ⟨r, hr, hx⟩ := bind_eq_ok_iff.1 h
    cases hx
    exact hc type v r hr
  | repeated element cardinality =>
    rw [hk] at h
    cases v with
    | array items =>
      obtain ⟨xs, hxs, hx⟩ := bind_eq_ok_iff.1 h
      cases hx
      exact hc.items (mapM_eq_ok_iff.1 hxs)
    | _ => cases h

/-- What an absent field stands for is shown as its completion. -/
theorem Completes.absent (hc : Completes ofJson canonical complete)
    (hempty : ∀ type ∈ f.kind.references, ofJson type (.object []) = .ok []) :
    (Canonical.content canonical f.kind (Canonical.absent f.kind)).toJson =
      Complete.content complete f.kind (Complete.absent f.kind) := by
  have hnone : bytesOf (.string "") = [] := bytesOf_string (Hex.decode?_encode [])
  cases hk : f.kind with
  | fixedBlob size =>
    rw [content_fixedBlob, Complete.absent, hnone]
    rfl
  | variableBlob sizeField =>
    rw [content_variableBlob, Complete.absent, hnone]
    rfl
  | embedded type =>
    refine (hc type (.object []) [] (hempty type ?_)).1
    rw [hk]
    simp [FieldKind.references]
  | _ => rfl

theorem Completes.record (hc : Completes ofJson canonical complete) (hs : s.Sound below)
    (hempty : ∀ f ∈ s.fields, ∀ type ∈ f.kind.references, ofJson type (.object []) = .ok [])
    {v : Json} (h : OfJson.record ofJson s v = .ok r) :
    (Canonical.record canonical s r).toJson = Complete.record complete s v ∧
      v.Keeps (Complete.record complete s v) := by
  obtain ⟨members, rfl, hkeys, hfields⟩ := OfJson.record_eq_ok_iff.1 h
  have hfield {f : Field} (hf : f ∈ s.fields) (hcontent : f.isContent) :=
    OfJson.get?_of_fields hfields hs.distinct hf hcontent
  constructor
  · unfold Canonical.record Canonical.fields Complete.record Record.toJson
    rw [Value.membersOf_eq_map, List.map_map]
    refine congrArg Json.object (List.map_congr_left fun f hf => ?_)
    obtain ⟨hf, hcontent⟩ := List.mem_filter.1 hf
    refine congrArg (f.name, ·) ?_
    show (Canonical.content canonical f.kind
      ((r.get? f.name).getD (Canonical.absent f.kind))).toJson = _
    rcases hfield hf hcontent with ⟨hnone, hget⟩ | ⟨v, x, hv, hx, hget⟩
    · rw [hnone, hget]
      exact hc.absent (hempty f hf)
    · rw [hv, hget]
      exact (hc.content hx).1
  · intro path hpath
    cases path with
    | nil => simp
    | cons step path =>
      cases step with
      | index i => cases hpath
      | key name =>
        unfold Json.at? at hpath
        cases hv : Json.member? members name with
        | none =>
          rw [hv] at hpath
          cases hpath
        | some v =>
          rw [hv] at hpath
          -- the key was checked, so it is a content field, and its content was taken
          obtain ⟨f, hf, rfl, hcontent⟩ :=
            (OfJson.checkKey_eq_ok_iff hs).1 (hkeys _ (Json.mem_of_member? hv))
          obtain ⟨hnone, -⟩ | ⟨w, x, hw, hx, -⟩ := hfield hf hcontent
          · rw [hv] at hnone
            cases hnone
          rw [hv] at hw
          cases hw
          have hmember : Json.member?
              ((s.fields.filter (·.isContent)).map (field complete members)) f.name =
                some (Complete.content complete f.kind v) := by
            refine Json.member?_of_mem ?_ ?_
            · rw [List.map_map]
              exact hs.distinct.sublist (List.filter_sublist.map _)
            · refine List.mem_map.2 ⟨f, List.mem_filter.2 ⟨hf, hcontent⟩, ?_⟩
              rw [field, hv]
              rfl
          unfold Complete.record Json.at?
          rw [hmember]
          exact (hc.content hx).2 path hpath

end

end Complete

/-- All structures of a layered schema are completed. -/
theorem Layered.completes {structures : List Structure} (h : Layered structures) :
    Complete.Completes
      (interpret (fun name _ => .error (.unknownStructure name)) OfJson.record structures)
      (interpret (fun _ r => r) Canonical.record structures)
      (interpret (fun _ v => v) Complete.record structures) := by
  induction h with
  | nil =>
    intro type v r hr
    cases hr
  | @cons s below _ hs _ ih =>
    intro type v r hr
    by_cases hname : s.name = type
    · subst hname
      rw [interpret_head] at hr ⊢
      rw [interpret_head]
      refine ih.record hs (fun f hf type ht => ?_) hr
      exact interpret_empty (hs.references f hf type ht)
    · rw [interpret_tail _ _ _ hname] at hr ⊢
      rw [interpret_tail _ _ _ hname]
      exact ih type v r hr

namespace Schema

variable {schema : Schema}

/-- What is decoded from the encoding of a text is the completion of the value of the text, which
has everything that the text has, at every depth. -/
theorem decodeText_of_encodeText {d : Document} (h : Schema.resolve d = .ok schema)
    {name text hex : String} (hencode : schema.encodeText name text = .ok hex) :
    ∃ v, Json.parse? text = some v ∧
      schema.decodeText {} name hex = .ok (schema.complete name v).pretty ∧
        ∀ path, (v.at? path).isSome → ((schema.complete name v).at? path).isSome := by
  have hl := layered_of_resolve h
  obtain ⟨v, r, bytes, hv, hr, hbytes, rfl⟩ := encodeText_eq_ok_iff.1 hencode
  obtain ⟨hw, hlen⟩ := (encode_eq_ok_iff hl).1 hbytes
  have hreads : Reader.Reads (schema.read {} name) bytes (schema.canonical name r) :=
    hl.restores name r bytes hw (by omega)
  obtain ⟨hshown, hkeeps⟩ := hl.completes name v r hr
  refine ⟨v, hv, decodeText_eq_ok_iff.2 ?_, hkeeps⟩
  exact ⟨bytes, _, Hex.decode?_encode bytes, hreads.decode, congrArg Json.pretty hshown⟩

end Schema

/-! ### An example -/

/-- A packet whose digest is given twice, and of which little else is given. -/
def sparsePacketJson : Json := .object [
  ("digest", .string "abc"),
  ("parts", .array [.object [("words", .array [.uint 1, .uint 2])], .object []]),
  ("digest", .string "0X07")]

theorem legible_sparsePacketJson : ∀ t ∈ sparsePacketJson.tokens, t.Legible := by
  simp [sparsePacketJson, Json.tokens, Json.itemTokens, Json.memberTokens, Json.Token.Legible,
    Json.Token.isWord_uint]

theorem parse?_sparsePacketJson :
    Json.parse? sparsePacketJson.pretty = some sparsePacketJson :=
  Json.parse?_pretty legible_sparsePacketJson (by decide)

theorem encodeText_sparsePacketJson :
    packetSchema.encodeText "Packet" sparsePacketJson.pretty =
      .ok (Hex.encode sparsePacketBytes) := by
  refine Schema.encodeText_eq_ok_iff.2 ⟨sparsePacketJson,
    [("digest", .bytes [7]), ("parts", .list [.record [("words", .list [.uint 1, .uint 2])],
      .record []])],
    sparsePacketBytes, parse?_sparsePacketJson, ?_, ?_, rfl⟩
  · rfl
  · decide +kernel

/-- The packet is completed. -/
theorem decodeText_of_encodeText_sparsePacketJson :
    Schema.resolve packetDocument = .ok packetSchema ∧
      packetSchema.encodeText "Packet" sparsePacketJson.pretty =
        .ok (Hex.encode sparsePacketBytes) ∧
      packetSchema.decodeText {} "Packet" (Hex.encode sparsePacketBytes) =
        .ok (Record.toJson fullPacket).pretty := by
  obtain ⟨v, hv, hdecode, -⟩ :=
    Schema.decodeText_of_encodeText resolve_packetDocument encodeText_sparsePacketJson
  rw [parse?_sparsePacketJson] at hv
  cases hv
  have hcomplete : packetSchema.complete "Packet" sparsePacketJson = Record.toJson fullPacket := rfl
  rw [hcomplete] at hdecode
  exact ⟨resolve_packetDocument, encodeText_sparsePacketJson, hdecode⟩

end WireSchema
