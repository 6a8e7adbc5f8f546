import Mathlib.Data.List.Forall2
import StackBackend.Tree.Codec

namespace StackBackend

/-! Trees survive their JSON form. A tree is read back from its encoding, and also from any
looser form of it: fields that have their default may be left out of a record, and members
that are no fields of it may be added. -/

namespace Json

/-! ## Looser forms -/

/-- The fields that may be left out of a record, with the values that they then have. -/
def defaults : List (String × Json) :=
  [("mutable", .bool false), ("is_static", .bool false), ("else_block", .null), ("base", .null)]

mutual

/-- A looser form of a value. In the encoding of a tree, an object with one member is a
variant and any other is a record, all of whose fields are there. -/
inductive Loosens : Json → Json → Prop
  | same (json : Json) : Loosens json json
  | array {items others : List Json} (all : List.Forall₂ Loosens items others) :
      Loosens (.array items) (.array others)
  | variant (name : String) {payload other : Json} (inner : Loosens payload other) :
      Loosens (.tagged name payload) (.tagged name other)
  | record {members others : List (String × Json)} (several : 2 ≤ members.length)
      (fields : LoosensMembers (members.map Prod.fst) members others) :
      Loosens (.object members) (.object others)

/-- The members of a record after some were left out and others added, whose names are not
known. -/
inductive LoosensMembers :
    List String → List (String × Json) → List (String × Json) → Prop
  | nil {known : List String} : LoosensMembers known [] []
  | keep {known : List String} (name : String) {value other : Json}
      {members others : List (String × Json)} (looser : Loosens value other)
      (rest : LoosensMembers known members others) :
      LoosensMembers known ((name, value) :: members) ((name, other) :: others)
  | drop {known : List String} {member : String × Json} {members others : List (String × Json)}
      (default : member ∈ defaults) (rest : LoosensMembers known members others) :
      LoosensMembers known (member :: members) others
  | add {known : List String} {member : String × Json} {members others : List (String × Json)}
      (unknown : member.1 ∉ known) (rest : LoosensMembers known members others) :
      LoosensMembers known members (member :: others)

end

theorem LoosensMembers.refl (known : List String) (members : List (String × Json)) :
    LoosensMembers known members members := by
  induction members with
  | nil => exact .nil
  | cons member rest induction => exact .keep member.1 (.same member.2) induction

theorem LoosensMembers.absent {known : List String} {name : String} (listed : name ∈ known) :
    {members others : List (String × Json)} → LoosensMembers known members others →
      name ∉ members.map Prod.fst → name ∉ others.map Prod.fst
  | _, _, .nil, missing => missing
  | _, _, .keep other looser rest, missing => by
      rw [List.map_cons, List.mem_cons, not_or] at missing ⊢
      exact ⟨missing.1, rest.absent listed missing.2⟩
  | _, _, .drop default rest, missing =>
      rest.absent listed fun found => missing (List.mem_cons_of_mem _ found)
  | _, _, .add unknown rest, missing => by
      rw [List.map_cons, List.mem_cons, not_or]
      exact ⟨fun same => unknown (same ▸ listed), rest.absent listed missing⟩

theorem filter_absent {members : List (String × Json)} {name : String}
    (absent : name ∉ members.map Prod.fst) :
    members.filter (fun member => member.1 == name) = [] := by
  rw [List.filter_eq_nil_iff]
  intro member listed same
  exact absent (eq_of_beq same ▸ List.mem_map_of_mem listed)

theorem unique?_absent {members : List (String × Json)} {name : String}
    (absent : name ∉ members.map Prod.fst) : unique? members name = some none := by
  rw [unique?, filter_absent absent]

theorem unique?_first {members : List (String × Json)} {name : String} (value : Json)
    (absent : name ∉ members.map Prod.fst) :
    unique? ((name, value) :: members) name = some (some value) := by
  have same : ((name, value).1 == name) = true := beq_self_eq_true name
  rw [unique?, List.filter_cons, if_pos same, filter_absent absent]

theorem unique?_other {member : String × Json} {name : String} (members : List (String × Json))
    (other : member.1 ≠ name) : unique? (member :: members) name = unique? members name := by
  rw [unique?, List.filter_cons_of_neg (by simpa using other), unique?]

/-- A field of a record in a looser form, no deeper than a bound, or missing where it has its
default. -/
inductive Field (bound : Nat) : String × Json → Option Json → Prop
  | kept {name : String} {value other : Json} (looser : value.Loosens other)
      (shallow : other.depth ≤ bound) : Field bound (name, value) (some other)
  | dropped {member : String × Json} (default : member ∈ defaults) : Field bound member none

/-- Every field is found in a looser form of a record. -/
theorem LoosensMembers.field {known : List String} {bound : Nat} :
    {members others : List (String × Json)} → LoosensMembers known members others →
      (members.map Prod.fst).Nodup → depthOfMembers others ≤ bound →
        ∀ member ∈ members, member.1 ∈ known →
          ∃ field, unique? others member.1 = some field ∧ Field bound member field
  | _, _, .nil, _, _, _, listed, _ => nomatch listed
  | _, _, .keep name looser rest, distinct, shallow, member, listed, known => by
      rw [List.map_cons, List.nodup_cons] at distinct
      rw [depthOfMembers, Nat.max_le] at shallow
      rcases List.mem_cons.mp listed with rfl | listed
      · have absent := rest.absent known distinct.1
        exact ⟨_, unique?_first _ absent, .kept looser shallow.1⟩
      · have other : name ≠ member.1 := fun same =>
          distinct.1 (List.mem_map.mpr ⟨member, listed, same.symm⟩)
        rcases rest.field distinct.2 shallow.2 member listed known with ⟨field, found, is⟩
        exact ⟨field, (unique?_other _ other).trans found, is⟩
  | _, _, .drop default rest, distinct, shallow, member, listed, known => by
      rw [List.map_cons, List.nodup_cons] at distinct
      rcases List.mem_cons.mp listed with rfl | listed
      · exact ⟨none, unique?_absent (rest.absent known distinct.1), .dropped default⟩
      · exact rest.field distinct.2 shallow member listed known
  | _, _, @LoosensMembers.add _ extra _ _ unknown rest, distinct, shallow, member, listed,
      known => by
      rw [depthOfMembers, Nat.max_le] at shallow
      rcases rest.field distinct shallow.2 member listed known with ⟨field, found, is⟩
      have other : extra.1 ≠ member.1 := fun same => unknown (same ▸ known)
      exact ⟨field, (unique?_other _ other).trans found, is⟩

theorem exists_fields {bound : Nat} {members others : List (String × Json)}
    (all : ∀ member ∈ members,
      ∃ field, unique? others member.1 = some field ∧ Field bound member field) :
    ∃ fields, (members.map Prod.fst).mapM (unique? others) = some fields ∧
      List.Forall₂ (Field bound) members fields := by
  induction members with
  | nil => exact ⟨[], rfl, .nil⟩
  | cons member rest induction =>
      rcases all member List.mem_cons_self with ⟨field, found, is⟩
      rcases induction fun other listed => all other (List.mem_cons_of_mem _ listed) with
        ⟨fields, others, are⟩
      exact ⟨field :: fields, by simp [found, others], .cons is are⟩

/-- A looser form of a record has all fields. -/
theorem Loosens.fields {bound : Nat} {members : List (String × Json)} {json : Json}
    (names : List String) (named : members.map Prod.fst = names) (several : 2 ≤ names.length)
    (distinct : names.Nodup) (looser : (object members).Loosens json)
    (shallow : json.depth ≤ bound + 1) :
    ∃ fields, json.fields? names = some fields ∧ List.Forall₂ (Field bound) members fields := by
  subst named
  have found : ∀ others, json = .object others →
      LoosensMembers (members.map Prod.fst) members others →
        ∃ fields, json.fields? (members.map Prod.fst) = some fields ∧
          List.Forall₂ (Field bound) members fields := by
    rintro others rfl looser
    have inside : depthOfMembers others ≤ bound := Nat.le_of_succ_le_succ shallow
    exact exists_fields fun member listed =>
      looser.field distinct inside member listed (List.mem_map_of_mem listed)
  cases looser with
  | same => exact found members rfl (.refl _ _)
  | variant => exact absurd several (by simp)
  | record several looser => exact found _ rfl looser

/-! ## Reading -/

section

variable {α β : Type} {bound : Nat} {decode : Json → Option α} {encoded : Json} {value : α}

/-- The decoder reads all looser forms of the encoding that are no deeper than the bound. -/
def Reads (bound : Nat) (decode : Json → Option α) (encoded : Json) (value : α) : Prop :=
  ∀ json, encoded.Loosens json → json.depth ≤ bound → decode json = some value

theorem depth_pos (json : Json) : 0 < json.depth := by
  cases json <;> simp [depth]

/-- A decoder that recurses on the bound reads nothing with the bound zero. -/
theorem Reads.of_succ {decode : Nat → Json → Option α}
    (reads : ∀ bound, Reads (bound + 1) (decode (bound + 1)) encoded value) (bound : Nat) :
    Reads bound (decode bound) encoded value := by
  cases bound with
  | zero => exact fun json _ shallow => absurd json.depth_pos (Nat.not_lt.mpr shallow)
  | succ bound => exact reads bound

theorem Reads.mono {lower : Nat} (reads : Reads bound decode encoded value) (le : lower ≤ bound) :
    Reads lower decode encoded value :=
  fun json looser shallow => reads json looser (Nat.le_trans shallow le)

theorem Reads.own {decode : Nat → Json → Option α}
    (reads : ∀ bound, Reads bound (decode bound) encoded value) (bound : Nat) :
    Reads bound (fun json => decode json.depth json) encoded value :=
  fun json looser _ => reads json.depth json looser (Nat.le_refl _)

theorem Reads.tagged {name : String}
    (reads : Reads bound (fun payload => decode (tagged name payload)) encoded value) :
    Reads (bound + 1) decode (tagged name encoded) value := by
  have read : ∀ payload, encoded.Loosens payload → (Json.tagged name payload).depth ≤ bound + 1 →
      decode (Json.tagged name payload) = some value := by
    intro payload looser shallow
    apply reads payload looser
    have inside : depthOfMembers [(name, payload)] ≤ bound := Nat.le_of_succ_le_succ shallow
    rw [depthOfMembers, Nat.max_le] at inside
    exact inside.1
  intro json looser shallow
  cases looser with
  | same => exact read encoded (.same encoded) shallow
  | variant _ inner => exact read _ inner shallow
  | record several => exact absurd several (by simp)

theorem Reads.variant {name : String}
    (reads : Reads bound (fun payload => decode (Json.tagged name payload)) encoded value) :
    Reads bound decode (Json.tagged name encoded) value :=
  reads.tagged.mono (Nat.le_succ bound)

theorem Field.required {name : String} {field : Option Json}
    (is : Field bound (name, encoded) field) (required : name ∉ defaults.map Prod.fst) :
    ∃ json, field = some json ∧ encoded.Loosens json ∧ json.depth ≤ bound := by
  cases is with
  | kept looser shallow => exact ⟨_, rfl, looser, shallow⟩
  | dropped default => exact absurd (List.mem_map_of_mem default) required

theorem Reads.required {name : String} {field : Option Json}
    (reads : Reads bound decode encoded value) (is : Field bound (name, encoded) field)
    (required : name ∉ defaults.map Prod.fst) :
    ∃ json, field = some json ∧ decode json = some value := by
  rcases is.required required with ⟨json, found, looser, shallow⟩
  exact ⟨json, found, reads json looser shallow⟩

theorem Reads.defaulted {name : String} {field : Option Json} {default : α}
    (reads : Reads bound decode encoded value) (is : Field bound (name, encoded) field)
    (same : (name, encoded) ∈ defaults → value = default) :
    defaulted? decode default field = some value := by
  cases is with
  | kept looser shallow => exact reads _ looser shallow
  | dropped missing => rw [defaulted?, same missing]

theorem mapM_of_reads {items : List Json} {values : List α}
    (reads : List.Forall₂ (Reads bound decode) items values) {others : List Json}
    (looser : List.Forall₂ Loosens items others) (shallow : depthOfItems others ≤ bound) :
    others.mapM decode = some values := by
  induction reads generalizing others with
  | nil =>
      cases looser
      rfl
  | cons reads _ induction =>
      cases looser with
      | cons looser rest =>
          rw [depthOfItems, Nat.max_le] at shallow
          simp [reads _ looser shallow.1, induction rest shallow.2]

/-- The decoder reads all looser forms of an array. -/
theorem Loosens.items {items : List Json} {values : List α} {json : Json}
    (reads : List.Forall₂ (Reads bound decode) items values)
    (looser : (Json.array items).Loosens json) (shallow : json.depth ≤ bound + 1) :
    ∃ others, json = .array others ∧ others.mapM decode = some values := by
  have read : ∀ others, json = .array others → List.Forall₂ Loosens items others →
      ∃ others, json = .array others ∧ others.mapM decode = some values := by
    rintro others rfl all
    exact ⟨others, rfl, mapM_of_reads reads all (Nat.le_of_succ_le_succ shallow)⟩
  cases looser with
  | same => exact read items rfl (List.forall₂_same.mpr fun _ _ => .same _)
  | array all => exact read _ rfl all

theorem toArray?_array (items : List Json) : toArray? (.array items) = some items := rfl

theorem reads_list {items : List Json} {values : List α}
    (reads : List.Forall₂ (Reads bound decode) items values) :
    Reads (bound + 1) (fun json => json.toArray?.bind fun items => items.mapM decode)
      (.array items) values := by
  intro json looser shallow
  rcases looser.items reads shallow with ⟨others, rfl, read⟩
  exact read

theorem Field.items {name : String} {field : Option Json} {items : List Json} {values : List α}
    (reads : List.Forall₂ (Reads bound decode) items values)
    (is : Field bound (name, .array items) field) (required : name ∉ defaults.map Prod.fst) :
    ∃ others, field = some (.array others) ∧ others.mapM decode = some values := by
  rcases is.required required with ⟨json, rfl, looser, shallow⟩
  rcases looser.items reads (Nat.le_succ_of_le shallow) with ⟨others, rfl, read⟩
  exact ⟨others, rfl, read⟩

/-- What has neither items nor members has no looser form but itself. -/
def isScalar : Json → Bool
  | .array _ | .object _ => false
  | _ => true

theorem Reads.scalar (plain : encoded.isScalar = true) (read : decode encoded = some value) :
    Reads bound decode encoded value := by
  intro json looser _
  cases looser with
  | same => exact read
  | array | variant | record => cases plain

theorem Loosens.not_null {json : Json} (compound : encoded.isScalar = false)
    (looser : encoded.Loosens json) : json ≠ .null := by
  rintro rfl
  cases looser
  cases compound

/-- A value that may be missing is written as null when it is, which no other value is. -/
theorem Reads.optional (compound : encoded.isScalar = false)
    (reads : Reads bound decode encoded value) :
    Reads bound (optional? decode) encoded (some value) := by
  intro json looser shallow
  have read : optional? decode json = (decode json).map some := by
    cases json with
    | null => exact absurd rfl (looser.not_null compound)
    | _ => rfl
  rw [read, reads json looser shallow, Option.map_some]

theorem Field.missing {name : String} {field : Option Json} (is : Field bound (name, .null) field) :
    defaulted? (optional? decode) none field = some none :=
  Reads.defaulted (.scalar rfl rfl) is fun _ => rfl

theorem Reads.given {name : String} {field : Option Json} (compound : encoded.isScalar = false)
    (reads : Reads bound decode encoded value) (is : Field bound (name, encoded) field) :
    defaulted? (optional? decode) none field = some (some value) := by
  apply (reads.optional compound).defaulted is
  intro default
  simp only [defaults, List.mem_cons, Prod.mk.injEq, List.not_mem_nil, or_false] at default
  rcases default with ⟨_, rfl⟩ | ⟨_, rfl⟩ | ⟨_, rfl⟩ | ⟨_, rfl⟩ <;> cases compound

theorem reads_bool (value : Bool) : Reads bound toBool? (.bool value) value :=
  .scalar rfl rfl

theorem reads_string (value : String) : Reads bound toString? (.string value) value :=
  .scalar rfl rfl

theorem toInt32?_ofInt32 (value : Int32) : toInt32? (ofInt32 value) = some value := by
  have lower := value.minValue_le_toInt
  have upper := value.toInt_le
  simp only [toInt32?, ofInt32, toInt?, Option.bind_eq_bind, Option.bind_some]
  rw [if_pos ⟨lower, upper⟩, Int32.ofInt_toInt]

theorem reads_int32 (value : Int32) : Reads bound toInt32? (ofInt32 value) value :=
  .scalar rfl (toInt32?_ofInt32 value)

theorem toByte?_toNat (value : UInt8) : toByte? (.integer value.toNat) = some value := by
  have upper : (value.toNat : Int) ≤ 255 := by have := value.toNat_lt; omega
  simp [toByte?, toInt?, upper]

theorem reads_byte (value : UInt8) : Reads bound toByte? (.integer value.toNat) value :=
  .scalar rfl (toByte?_toNat value)

theorem reads_floating {value : Binary64} (finite : value.isFinite = true) :
    Reads bound toBinary64? (.floating value) value :=
  .scalar rfl (if_pos finite)

theorem Reads.map {make : α → β} (reads : Reads bound decode encoded value) :
    Reads bound (fun json => (decode json).map make) encoded (make value) := by
  intro json looser shallow
  simp only [reads json looser shallow, Option.map_some]

/-- A name that stands for one of a few alternatives. -/
theorem reads_named {alternatives : List α} {name : α → String}
    (listed : ∀ value, alternatives.find? (fun other => name other == name value) = some value)
    (value : α) : Reads bound (named? alternatives name) (.string (name value)) value := by
  apply Reads.scalar rfl
  simp [named?, variant?, listed, unit?, isUnit]

end

end Json

/-! ## Finite numbers -/

/-- Whether a floating operand is a finite number. -/
def Instruction.isFinite (instruction : Instruction) : Bool :=
  match instruction.operand with
  | .floating value => value.isFinite
  | _ => true

/-- Whether the floating operand of its instruction is a finite number, if there is one. -/
def Signature.isFinite : Signature → Bool
  | .instruction operation => operation.isFinite
  | .snippet _ | .full _ => true

mutual

/-- Whether all floating numbers of a tree are finite, also those of its instructions. -/
def Expr.isFinite : Expr → Bool
  | .typed _ form => form.isFinite

def Form.isFinite : Form → Bool
  | .boolean _ | .character _ | .integer _ | .string _ | .identifier _ => true
  | .floating value => value.isFinite
  | .operation signature operands => signature.isFinite && allFinite operands
  | .comparison _ left right => left.isFinite && right.isFinite
  | .populatedArray elements => allFinite elements
  | .lambda _ body _ _ => blockFinite body
  | .invocation callee arguments => callee.isFinite && allFinite arguments
  | .map array function | .reduce array function => array.isFinite && function.isFinite
  | .fold array none function => array.isFinite && function.isFinite
  | .fold array (some base) function => array.isFinite && base.isFinite && function.isFinite
  | .zip first second function => first.isFinite && second.isFinite && function.isFinite

def allFinite : List Expr → Bool
  | [] => true
  | expression :: rest => expression.isFinite && allFinite rest

def PrintItem.isFinite : PrintItem → Bool
  | .expression expression => expression.isFinite
  | .newline | .space | .tab => true

def itemsFinite : List PrintItem → Bool
  | [] => true
  | item :: rest => item.isFinite && itemsFinite rest

def Statement.isFinite : Statement → Bool
  | .declaration _ value _ => value.isFinite
  | .assignment target value => target.isFinite && value.isFinite
  | .print items => itemsFinite items
  | .ifElse condition thenBlock none => condition.isFinite && blockFinite thenBlock
  | .ifElse condition thenBlock (some elseBlock) =>
      condition.isFinite && blockFinite thenBlock && blockFinite elseBlock
  | .while condition body => condition.isFinite && blockFinite body
  | .for _ _ sequence body => sequence.isFinite && blockFinite body
  | .break | .continue | .return none => true
  | .return (some value) | .call value | .release value => value.isFinite
  | .block statements => blockFinite statements

def blockFinite : List Statement → Bool
  | [] => true
  | statement :: rest => statement.isFinite && blockFinite rest

end

open Json

/-! ## Parts of trees -/

attribute [local simp] Json.tagged variant? toArray?_array

mutual

theorem Ty.reads_succ : (type : Ty) → ∀ bound,
    Reads (bound + 1) (Ty.decodeWithin (bound + 1)) type.encode type
  | .boolean, _ | .character, _ | .integer, _ | .floating, _ | .string, _ | .rational, _
  | .void, _ => .scalar rfl rfl
  | .array element, bound => .tagged (Reads.of_succ element.reads_succ bound).map
  | .lambda parameters result, bound => by
      apply Reads.tagged
      intro json looser shallow
      have ⟨_, found, .cons inputs (.cons output .nil)⟩ := looser.fields ["parameters", "result"]
        rfl (by decide) (by decide) (Nat.le_succ_of_le shallow)
      rcases inputs.items (Ty.reads_list parameters bound) (by decide) with ⟨_, rfl, readInputs⟩
      rcases (Reads.of_succ result.reads_succ bound).required output (by decide) with
        ⟨_, rfl, readOutput⟩
      simp [Ty.decodeWithin, found, readInputs, readOutput]

theorem Ty.reads_list : (types : List Ty) → ∀ bound,
    List.Forall₂ (Reads bound (Ty.decodeWithin bound)) (Ty.encodeList types) types
  | [], _ => .nil
  | type :: rest, bound => .cons (Reads.of_succ type.reads_succ bound) (Ty.reads_list rest bound)

end

theorem Ty.reads (type : Ty) (bound : Nat) : Reads bound Ty.decode? type.encode type :=
  Reads.own (Reads.of_succ type.reads_succ) bound

theorem Location.reads (location : Location) (bound : Nat) :
    Reads bound Location.decode? location.encode location := by
  cases location with
  | global offset | frameLocal offset | parameter offset => exact .variant (reads_int32 offset).map

theorem Binding.reads (binding : Binding) (bound : Nat) :
    Reads bound Binding.decode? binding.encode binding := by
  intro json looser shallow
  have ⟨_, found, .cons name (.cons type (.cons location (.cons isMutable .nil)))⟩ :=
    looser.fields ["name", "ty", "location", "mutable"] rfl (by decide) (by decide)
      (Nat.le_succ_of_le shallow)
  rcases (reads_string binding.name).required name (by decide) with ⟨_, rfl, readName⟩
  rcases (binding.type.reads bound).required type (by decide) with ⟨_, rfl, readType⟩
  rcases (binding.location.reads bound).required location (by decide) with ⟨_, rfl, readLocation⟩
  have readMutable : defaulted? toBool? false _ = some binding.mutable :=
    (reads_bool binding.mutable).defaulted isMutable (by simp [defaults])
  simp [Binding.decode?, found, readName, readType, readLocation, readMutable]

theorem Relation.reads (relation : Relation) (bound : Nat) :
    Reads bound Relation.decode? (.string relation.name) relation :=
  reads_named (by intro value; cases value <;> rfl) relation

theorem ForKind.reads (kind : ForKind) (bound : Nat) :
    Reads bound ForKind.decode? (.string kind.name) kind :=
  reads_named (by intro value; cases value <;> rfl) kind

theorem Snippet.reads (chosen : Snippet) (bound : Nat) :
    Reads bound Snippet.decode? (.string chosen.name) chosen :=
  reads_named (by intro value; cases value <;> rfl) chosen

theorem Composer.reads (composer : Composer) (bound : Nat) :
    Reads bound Composer.decode? (.string composer.name) composer :=
  reads_named (by intro value; cases value <;> rfl) composer

namespace Instruction

theorem reads (instruction : Instruction) (finite : instruction.isFinite = true) (bound : Nat) :
    Reads bound Instruction.decode? instruction.encode instruction := by
  rcases Option.bind_eq_some_iff.mp (opcodeShape?_opcode instruction) with ⟨shape, known, made⟩
  unfold isFinite at finite
  unfold Instruction.encode
  cases operand : instruction.operand with
  | absent =>
      rw [operand] at made
      cases shape <;> cases made
      exact .scalar rfl (by simp [decode?, known, unit?, isUnit])
  | integer value =>
      rw [operand] at made
      cases shape <;> cases made
      refine .variant fun json looser shallow => ?_
      simp [decode?, known, reads_int32 value json looser shallow]
  | byte value =>
      rw [operand] at made
      cases shape <;> cases made
      refine .variant fun json looser shallow => ?_
      simp [decode?, known, reads_byte value json looser shallow]
  | floating value =>
      rw [operand] at made finite
      cases shape <;> cases made
      refine .variant fun json looser shallow => ?_
      simp [decode?, known, reads_floating finite json looser shallow]
  | label value | text value =>
      rw [operand] at made
      cases shape <;> cases made
      refine .variant fun json looser shallow => ?_
      simp [decode?, known, reads_string value json looser shallow]

end Instruction

namespace Signature

theorem reads (signature : Signature) (finite : signature.isFinite = true) (bound : Nat) :
    Reads bound Signature.decode? signature.encode signature := by
  cases signature with
  | instruction operation => exact .variant (operation.reads finite bound).map
  | snippet chosen => exact .variant (chosen.reads bound).map
  | full composer => exact .variant (composer.reads bound).map

end Signature

/-! ## Trees -/

theorem forall₂_map {α β : Type} {relation : β → α → Prop} {make : α → β}
    (holds : ∀ value, relation (make value) value) (values : List α) :
    List.Forall₂ relation (values.map make) values := by
  induction values with
  | nil => exact .nil
  | cons value rest induction => exact .cons (holds value) induction

theorem Expr.isScalar_encode (expression : Expr) : expression.encode.isScalar = false := by
  cases expression
  rfl

mutual

theorem Expr.reads_succ : (expression : Expr) → expression.isFinite = true → ∀ bound,
    Reads (bound + 1) (Expr.decodeWithin (bound + 1)) expression.encode expression
  | .typed type form, finite, bound => by
      intro json looser shallow
      rw [Expr.isFinite] at finite
      have ⟨_, found, .cons first (.cons second .nil)⟩ := looser.fields ["ty", "kind"]
        rfl (by decide) (by decide) shallow
      rcases (type.reads bound).required first (by decide) with ⟨_, rfl, readType⟩
      rcases (Reads.of_succ (form.reads_succ finite) bound).required second (by decide) with
        ⟨_, rfl, readForm⟩
      simp [Expr.decodeWithin, found, readType, readForm]

theorem Form.reads_succ : (form : Form) → form.isFinite = true → ∀ bound,
    Reads (bound + 1) (Form.decodeWithin (bound + 1)) form.encode form
  | .boolean value, _, _ => .tagged (reads_bool value).map
  | .character value, _, _ => .tagged (reads_byte value).map
  | .integer value, _, _ => .tagged (reads_int32 value).map
  | .floating value, finite, _ => by
      rw [Form.isFinite] at finite
      exact .tagged (reads_floating finite).map
  | .string value, _, _ => .tagged (reads_string value).map
  | .identifier binding, _, bound => .tagged (binding.reads bound).map
  | .operation signature operands, finite, bound => by
      rw [Form.isFinite, Bool.and_eq_true] at finite
      refine .tagged fun json looser shallow => ?_
      have ⟨_, found, .cons first (.cons second .nil)⟩ := looser.fields ["signature", "operands"]
        rfl (by decide) (by decide) (Nat.le_succ_of_le shallow)
      rcases (signature.reads finite.1 bound).required first (by decide) with ⟨_, rfl, readFirst⟩
      rcases second.items (exprs_read operands finite.2 bound) (by decide) with ⟨_, rfl, readSecond⟩
      refine Option.bind_eq_some_iff.mpr ⟨_, found, ?_⟩
      simp [readFirst, readSecond]
  | .comparison relation left right, finite, bound => by
      rw [Form.isFinite, Bool.and_eq_true] at finite
      refine .tagged fun json looser shallow => ?_
      have ⟨_, found, .cons first (.cons second (.cons third .nil))⟩ :=
        looser.fields ["op", "lhs", "rhs"] rfl (by decide) (by decide) (Nat.le_succ_of_le shallow)
      rcases (relation.reads bound).required first (by decide) with ⟨_, rfl, readFirst⟩
      rcases (Reads.of_succ (left.reads_succ finite.1) bound).required second (by decide) with
        ⟨_, rfl, readSecond⟩
      rcases (Reads.of_succ (right.reads_succ finite.2) bound).required third (by decide) with
        ⟨_, rfl, readThird⟩
      refine Option.bind_eq_some_iff.mpr ⟨_, found, ?_⟩
      simp [readFirst, readSecond, readThird]
  | .populatedArray elements, finite, bound => by
      rw [Form.isFinite] at finite
      refine .tagged fun json looser shallow => ?_
      rcases looser.items (exprs_read elements finite bound) (Nat.le_succ_of_le shallow) with
        ⟨_, rfl, read⟩
      exact Option.bind_eq_some_iff.mpr ⟨_, read, rfl⟩
  | .lambda parameters body parameterSize localSize, finite, bound => by
      rw [Form.isFinite] at finite
      refine .tagged fun json looser shallow => ?_
      have ⟨_, found, .cons first (.cons second (.cons third (.cons fourth .nil)))⟩ :=
        looser.fields ["parameters", "body", "parameter_scope_size", "local_scope_size"] rfl
          (by decide) (by decide) (Nat.le_succ_of_le shallow)
      have bindings := forall₂_map (fun binding => Binding.reads binding bound) parameters
      rcases first.items bindings (by decide) with ⟨_, rfl, readFirst⟩
      rcases second.items (statements_read body finite bound) (by decide) with ⟨_, rfl, readSecond⟩
      rcases (reads_int32 parameterSize).required third (by decide) with ⟨_, rfl, readThird⟩
      rcases (reads_int32 localSize).required fourth (by decide) with ⟨_, rfl, readFourth⟩
      refine Option.bind_eq_some_iff.mpr ⟨_, found, ?_⟩
      simp [readFirst, readSecond, readThird, readFourth]
  | .invocation callee arguments, finite, bound => by
      rw [Form.isFinite, Bool.and_eq_true] at finite
      refine .tagged fun json looser shallow => ?_
      have ⟨_, found, .cons first (.cons second .nil)⟩ := looser.fields ["callee", "arguments"]
        rfl (by decide) (by decide) (Nat.le_succ_of_le shallow)
      rcases (Reads.of_succ (callee.reads_succ finite.1) bound).required first (by decide) with
        ⟨_, rfl, readFirst⟩
      rcases second.items (exprs_read arguments finite.2 bound) (by decide) with
        ⟨_, rfl, readSecond⟩
      refine Option.bind_eq_some_iff.mpr ⟨_, found, ?_⟩
      simp [readFirst, readSecond]
  | .map sequence function, finite, bound | .reduce sequence function, finite, bound => by
      rw [Form.isFinite, Bool.and_eq_true] at finite
      refine .tagged fun json looser shallow => ?_
      have ⟨_, found, .cons first (.cons second .nil)⟩ := looser.fields ["array", "lambda"]
        rfl (by decide) (by decide) (Nat.le_succ_of_le shallow)
      rcases (Reads.of_succ (sequence.reads_succ finite.1) bound).required first (by decide) with
        ⟨_, rfl, readFirst⟩
      rcases (Reads.of_succ (function.reads_succ finite.2) bound).required second (by decide) with
        ⟨_, rfl, readSecond⟩
      refine Option.bind_eq_some_iff.mpr ⟨_, found, ?_⟩
      simp [readFirst, readSecond]
  | .fold sequence none function, finite, bound => by
      rw [Form.isFinite, Bool.and_eq_true] at finite
      refine .tagged fun json looser shallow => ?_
      have ⟨_, found, .cons first (.cons second (.cons third .nil))⟩ :=
        looser.fields ["array", "base", "lambda"] rfl (by decide) (by decide)
          (Nat.le_succ_of_le shallow)
      rcases (Reads.of_succ (sequence.reads_succ finite.1) bound).required first (by decide) with
        ⟨_, rfl, readFirst⟩
      have readSecond : defaulted? (optional? (Expr.decodeWithin bound)) none _ = some none :=
        Field.missing second
      rcases (Reads.of_succ (function.reads_succ finite.2) bound).required third (by decide) with
        ⟨_, rfl, readThird⟩
      refine Option.bind_eq_some_iff.mpr ⟨_, found, ?_⟩
      simp [readFirst, readSecond, readThird]
  | .fold sequence (some base) function, finite, bound => by
      rw [Form.isFinite, Bool.and_eq_true, Bool.and_eq_true] at finite
      refine .tagged fun json looser shallow => ?_
      have ⟨_, found, .cons first (.cons second (.cons third .nil))⟩ :=
        looser.fields ["array", "base", "lambda"] rfl (by decide) (by decide)
          (Nat.le_succ_of_le shallow)
      rcases (Reads.of_succ (sequence.reads_succ finite.1.1) bound).required first (by decide) with
        ⟨_, rfl, readFirst⟩
      have readSecond :=
        (Reads.of_succ (base.reads_succ finite.1.2) bound).given base.isScalar_encode second
      rcases (Reads.of_succ (function.reads_succ finite.2) bound).required third (by decide) with
        ⟨_, rfl, readThird⟩
      refine Option.bind_eq_some_iff.mpr ⟨_, found, ?_⟩
      simp [readFirst, readSecond, readThird]
  | .zip left right function, finite, bound => by
      rw [Form.isFinite, Bool.and_eq_true, Bool.and_eq_true] at finite
      refine .tagged fun json looser shallow => ?_
      have ⟨_, found, .cons first (.cons second (.cons third .nil))⟩ :=
        looser.fields ["first", "second", "lambda"] rfl (by decide) (by decide)
          (Nat.le_succ_of_le shallow)
      rcases (Reads.of_succ (left.reads_succ finite.1.1) bound).required first (by decide) with
        ⟨_, rfl, readFirst⟩
      rcases (Reads.of_succ (right.reads_succ finite.1.2) bound).required second (by decide) with
        ⟨_, rfl, readSecond⟩
      rcases (Reads.of_succ (function.reads_succ finite.2) bound).required third (by decide) with
        ⟨_, rfl, readThird⟩
      refine Option.bind_eq_some_iff.mpr ⟨_, found, ?_⟩
      simp [readFirst, readSecond, readThird]

theorem exprs_read : (expressions : List Expr) → allFinite expressions = true → ∀ bound,
    List.Forall₂ (Reads bound (Expr.decodeWithin bound)) (encodeExprs expressions) expressions
  | [], _, _ => .nil
  | expression :: rest, finite, bound => by
      rw [allFinite, Bool.and_eq_true] at finite
      exact .cons (Reads.of_succ (expression.reads_succ finite.1) bound)
        (exprs_read rest finite.2 bound)

theorem PrintItem.reads_succ : (item : PrintItem) → item.isFinite = true → ∀ bound,
    Reads (bound + 1) (PrintItem.decodeWithin (bound + 1)) item.encode item
  | .expression expression, finite, bound => by
      rw [PrintItem.isFinite] at finite
      exact .tagged (Reads.of_succ (expression.reads_succ finite) bound).map
  | .newline, _, _ | .space, _, _ | .tab, _, _ => .scalar rfl rfl

theorem items_read : (items : List PrintItem) → itemsFinite items = true → ∀ bound,
    List.Forall₂ (Reads bound (PrintItem.decodeWithin bound)) (encodePrintItems items) items
  | [], _, _ => .nil
  | item :: rest, finite, bound => by
      rw [itemsFinite, Bool.and_eq_true] at finite
      exact .cons (Reads.of_succ (item.reads_succ finite.1) bound) (items_read rest finite.2 bound)

theorem Statement.reads_succ : (statement : Statement) → statement.isFinite = true → ∀ bound,
    Reads (bound + 1) (Statement.decodeWithin (bound + 1)) statement.encode statement
  | .declaration binding value isStatic, finite, bound => by
      rw [Statement.isFinite] at finite
      refine .tagged fun json looser shallow => ?_
      have ⟨_, found, .cons first (.cons second (.cons third .nil))⟩ :=
        looser.fields ["binding", "value", "is_static"] rfl (by decide) (by decide)
          (Nat.le_succ_of_le shallow)
      rcases (binding.reads bound).required first (by decide) with ⟨_, rfl, readFirst⟩
      rcases (Reads.of_succ (value.reads_succ finite) bound).required second (by decide) with
        ⟨_, rfl, readSecond⟩
      have readThird : defaulted? toBool? false _ = some isStatic :=
        (reads_bool isStatic).defaulted third (by simp [defaults])
      refine Option.bind_eq_some_iff.mpr ⟨_, found, ?_⟩
      simp [readFirst, readSecond, readThird]
  | .assignment target value, finite, bound => by
      rw [Statement.isFinite, Bool.and_eq_true] at finite
      refine .tagged fun json looser shallow => ?_
      have ⟨_, found, .cons first (.cons second .nil)⟩ := looser.fields ["target", "value"]
        rfl (by decide) (by decide) (Nat.le_succ_of_le shallow)
      rcases (Reads.of_succ (target.reads_succ finite.1) bound).required first (by decide) with
        ⟨_, rfl, readFirst⟩
      rcases (Reads.of_succ (value.reads_succ finite.2) bound).required second (by decide) with
        ⟨_, rfl, readSecond⟩
      refine Option.bind_eq_some_iff.mpr ⟨_, found, ?_⟩
      simp [readFirst, readSecond]
  | .print items, finite, bound => by
      rw [Statement.isFinite] at finite
      refine .tagged fun json looser shallow => ?_
      rcases looser.items (items_read items finite bound) (Nat.le_succ_of_le shallow) with
        ⟨_, rfl, read⟩
      exact Option.bind_eq_some_iff.mpr ⟨_, read, rfl⟩
  | .ifElse condition thenBlock none, finite, bound => by
      rw [Statement.isFinite, Bool.and_eq_true] at finite
      refine .tagged fun json looser shallow => ?_
      have ⟨_, found, .cons first (.cons second (.cons third .nil))⟩ :=
        looser.fields ["condition", "then_block", "else_block"] rfl (by decide) (by decide)
          (Nat.le_succ_of_le shallow)
      rcases (Reads.of_succ (condition.reads_succ finite.1) bound).required first (by decide) with
        ⟨_, rfl, readFirst⟩
      rcases second.items (statements_read thenBlock finite.2 bound) (by decide) with
        ⟨_, rfl, readSecond⟩
      have readThird : defaulted? (optional? fun block =>
          block.toArray?.bind fun items => items.mapM (Statement.decodeWithin bound)) none _ =
            some none := Field.missing third
      refine Option.bind_eq_some_iff.mpr ⟨_, found, ?_⟩
      simp [readFirst, readSecond, readThird]
  | .ifElse condition thenBlock (some elseBlock), finite, bound => by
      rw [Statement.isFinite, Bool.and_eq_true, Bool.and_eq_true] at finite
      refine .tagged fun json looser shallow => ?_
      have ⟨_, found, .cons first (.cons second (.cons third .nil))⟩ :=
        looser.fields ["condition", "then_block", "else_block"] rfl (by decide) (by decide)
          (Nat.le_succ_of_le shallow)
      rcases (Reads.of_succ (condition.reads_succ finite.1.1) bound).required first (by decide) with
        ⟨_, rfl, readFirst⟩
      rcases second.items (statements_read thenBlock finite.1.2 bound) (by decide) with
        ⟨_, rfl, readSecond⟩
      have readThird := ((reads_list (statements_read elseBlock finite.2 bound)).mono
        (Nat.le_succ bound)).given rfl third
      refine Option.bind_eq_some_iff.mpr ⟨_, found, ?_⟩
      simp [readFirst, readSecond, readThird]
  | .while condition body, finite, bound => by
      rw [Statement.isFinite, Bool.and_eq_true] at finite
      refine .tagged fun json looser shallow => ?_
      have ⟨_, found, .cons first (.cons second .nil)⟩ := looser.fields ["condition", "body"]
        rfl (by decide) (by decide) (Nat.le_succ_of_le shallow)
      rcases (Reads.of_succ (condition.reads_succ finite.1) bound).required first (by decide) with
        ⟨_, rfl, readFirst⟩
      rcases second.items (statements_read body finite.2 bound) (by decide) with
        ⟨_, rfl, readSecond⟩
      refine Option.bind_eq_some_iff.mpr ⟨_, found, ?_⟩
      simp [readFirst, readSecond]
  | .for kind loopVariable sequence body, finite, bound => by
      rw [Statement.isFinite, Bool.and_eq_true] at finite
      refine .tagged fun json looser shallow => ?_
      have ⟨_, found, .cons first (.cons second (.cons third (.cons fourth .nil)))⟩ :=
        looser.fields ["kind", "variable", "sequence", "body"] rfl (by decide) (by decide)
          (Nat.le_succ_of_le shallow)
      rcases (kind.reads bound).required first (by decide) with ⟨_, rfl, readFirst⟩
      rcases (loopVariable.reads bound).required second (by decide) with ⟨_, rfl, readSecond⟩
      rcases (Reads.of_succ (sequence.reads_succ finite.1) bound).required third (by decide) with
        ⟨_, rfl, readThird⟩
      rcases fourth.items (statements_read body finite.2 bound) (by decide) with
        ⟨_, rfl, readFourth⟩
      refine Option.bind_eq_some_iff.mpr ⟨_, found, ?_⟩
      simp [readFirst, readSecond, readThird, readFourth]
  | .break, _, _ | .continue, _, _ => .scalar rfl rfl
  | .return none, _, _ => .tagged (.scalar rfl rfl)
  | .return (some value), finite, bound => by
      rw [Statement.isFinite] at finite
      have reads := (Reads.of_succ (value.reads_succ finite) bound).optional value.isScalar_encode
      refine .tagged fun json looser shallow => ?_
      exact Option.bind_eq_some_iff.mpr ⟨_, reads json looser shallow, rfl⟩
  | .call value, finite, bound | .release value, finite, bound => by
      rw [Statement.isFinite] at finite
      exact .tagged (Reads.of_succ (value.reads_succ finite) bound).map
  | .block statements, finite, bound => by
      rw [Statement.isFinite] at finite
      refine .tagged fun json looser shallow => ?_
      rcases looser.items (statements_read statements finite bound) (Nat.le_succ_of_le shallow) with
        ⟨_, rfl, read⟩
      exact Option.bind_eq_some_iff.mpr ⟨_, read, rfl⟩

theorem statements_read : (statements : List Statement) → blockFinite statements = true →
    ∀ bound, List.Forall₂ (Reads bound (Statement.decodeWithin bound))
      (encodeStatements statements) statements
  | [], _, _ => .nil
  | statement :: rest, finite, bound => by
      rw [blockFinite, Bool.and_eq_true] at finite
      exact .cons (Reads.of_succ (statement.reads_succ finite.1) bound)
        (statements_read rest finite.2 bound)

end

theorem block_read : (statements : List Statement) → blockFinite statements = true → ∀ bound,
    List.Forall₂ (Reads bound Statement.decode?) (encodeStatements statements) statements
  | [], _, _ => .nil
  | statement :: rest, finite, bound => by
      rw [blockFinite, Bool.and_eq_true] at finite
      exact .cons (Reads.own (Reads.of_succ (statement.reads_succ finite.1)) bound)
        (block_read rest finite.2 bound)

namespace Program

/-- Whether all floating numbers of a program are finite. -/
def isFinite (program : Program) : Bool :=
  blockFinite program.body

theorem reads (program : Program) (finite : program.isFinite = true) (bound : Nat) :
    Reads bound Program.decode? program.encode program := by
  intro json looser shallow
  have ⟨_, found, .cons first (.cons second .nil)⟩ := looser.fields ["global_scope_size", "body"]
    rfl (by decide) (by decide) (Nat.le_succ_of_le shallow)
  rcases (reads_int32 program.globalSize).required first (by decide) with ⟨_, rfl, readFirst⟩
  rcases second.items (block_read program.body finite bound) (by decide) with ⟨_, rfl, readSecond⟩
  refine Option.bind_eq_some_iff.mpr ⟨_, found, ?_⟩
  simp [readFirst, Statement.decodeBlock?, readSecond]

/-- A program is read back from its encoding and from every looser form of it. -/
theorem survives_encoding (program : Program) (finite : program.isFinite = true) :
    Program.decode? program.encode = some program ∧
      ∀ json, program.encode.Loosens json → Program.decode? json = some program := by
  have read : ∀ json, program.encode.Loosens json → Program.decode? json = some program :=
    fun json looser => program.reads finite json.depth json looser (Nat.le_refl _)
  exact ⟨read program.encode (.same _), read⟩

/-- A program that returns the sum of a variable and two. -/
def adding : Program where
  globalSize := 8
  body := [.return (some (.typed .floating (.operation (.instruction .fAdd)
    [.typed .floating (.identifier ⟨"x", .floating, .global 0, false⟩),
      .typed .floating (.floating (Binary64.ofInt32 2))])))]

/-- The same in another form: the program says which version it is, and the variable where it
stands but not that it is constant. -/
def addingLoosely : Json :=
  .object [("version", .integer 1), ("global_scope_size", .integer 8),
    ("body", .array [.tagged "return" (.object [("ty", .string "floating"),
      ("kind", .tagged "operation" (.object [
        ("signature", .tagged "instruction" (.string "FAdd")),
        ("operands", .array [
          .object [("ty", .string "floating"),
            ("kind", .tagged "identifier" (.object [("name", .string "x"),
              ("ty", .string "floating"), ("location", .tagged "global" (.integer 0)),
              ("span", .array [])]))],
          .object [("ty", .string "floating"),
            ("kind", .tagged "floating" (.floating (Binary64.ofInt32 2)))]])]))])])]

theorem addingLoosely_read :
    adding.isFinite = true ∧ adding.encode.Loosens addingLoosely ∧
      Program.decode? addingLoosely = some adding := by
  have finite : adding.isFinite = true := by decide
  have binding : Json.Loosens
      (.object [("name", .string "x"), ("ty", .string "floating"),
        ("location", .tagged "global" (.integer 0)), ("mutable", .bool false)])
      (.object [("name", .string "x"), ("ty", .string "floating"),
        ("location", .tagged "global" (.integer 0)), ("span", .array [])]) :=
    .record (by decide) (.keep _ (.same _) (.keep _ (.same _) (.keep _ (.same _)
      (.drop (by simp [defaults]) (.add (by decide) .nil)))))
  have looser : adding.encode.Loosens addingLoosely := by
    refine .record (by decide) (.add (by decide) (.keep _ (.same _) (.keep "body" ?_ .nil)))
    refine .array (.cons (.variant "return" ?_) .nil)
    refine .record (by decide) (.keep _ (.same _) (.keep "kind" (.variant "operation" ?_) .nil))
    refine .record (by decide) (.keep _ (.same _) (.keep "operands" (.array ?_) .nil))
    refine .cons (.record (by decide) ?_) (.cons (.same _) .nil)
    exact .keep _ (.same _) (.keep "kind" (.variant "identifier" binding) .nil)
  exact ⟨finite, looser, (survives_encoding adding finite).2 addingLoosely looser⟩

end Program

end StackBackend
