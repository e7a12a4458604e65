import GhostDag.Framing.Frame
import GhostDag.Lib.BinaryFormat

/-!
# GhostDag.Cbor.Json

`nlohmann::basic_json` of `thirdparty/json.h`: the values that messages are
made of.

An object is a `std::map`, here the list of its members in the order of their
keys; strings are compared byte by byte.  A double is a word of 64 bits.
-/

namespace GhostDag

/-- `basic_json`, but for discarded values. -/
inductive BasicJson
  | null
  | boolean (b : Bool)
  | numberInteger (n : Int64)
  | numberUnsigned (n : UInt64)
  | numberFloat (word : UInt64)
  | string (s : Bytes)
  | array (elements : List BasicJson)
  | binary (data : Bytes) (subtype : Option UInt64)
  | object (members : List (Bytes × BasicJson))

namespace BasicJson

/-- `max_size()` of a `std::vector` of values of 16 bytes. -/
def maxArraySize : Nat := (2 ^ 63 - 1) / 16

/-- `max_size()` of a `std::map` with nodes of 80 bytes. -/
def maxObjectSize : Nat := (2 ^ 63 - 1) / 80

/-! ## objects -/

/-- `object[key] = value`. -/
def insert (key : Bytes) (value : BasicJson) :
    List (Bytes × BasicJson) → List (Bytes × BasicJson)
  | [] => [(key, value)]
  | m :: members =>
      if key < m.1 then (key, value) :: m :: members
      else if key = m.1 then (key, value) :: members
      else m :: insert key value members

/-- An object whose members have been assigned in turn. -/
def ofMembers (members : List (Bytes × BasicJson)) : BasicJson :=
  .object (members.foldl (fun object m => insert m.1 m.2 object) [])

/-- The keys are in order, each there once. -/
def Ordered (members : List (Bytes × BasicJson)) : Prop :=
  members.Pairwise fun m m' => m.1 < m'.1

theorem mem_insert {key : Bytes} {value : BasicJson} {members : List (Bytes × BasicJson)}
    {m : Bytes × BasicJson} (h : m ∈ insert key value members) :
    m = (key, value) ∨ m ∈ members := by
  induction members with
  | nil => exact .inl (List.mem_singleton.mp h)
  | cons m' members ih =>
      rw [insert] at h
      split at h
      · exact List.mem_cons.mp h
      · split at h
        · obtain rfl | h := List.mem_cons.mp h
          · exact .inl rfl
          · exact .inr (List.mem_cons_of_mem m' h)
        · obtain rfl | h := List.mem_cons.mp h
          · exact .inr List.mem_cons_self
          · exact (ih h).imp id (List.mem_cons_of_mem m')

theorem length_insert_le (key : Bytes) (value : BasicJson) (members : List (Bytes × BasicJson)) :
    (insert key value members).length ≤ members.length + 1 := by
  induction members with
  | nil => exact Nat.le_refl 1
  | cons m members ih =>
      rw [insert]
      split
      · exact Nat.le_refl _
      · split
        · exact Nat.le_succ _
        · exact Nat.succ_le_succ ih

theorem Ordered.insert {key : Bytes} {value : BasicJson} {members : List (Bytes × BasicJson)}
    (h : Ordered members) : Ordered (insert key value members) := by
  induction members with
  | nil => exact List.pairwise_singleton _ _
  | cons m members ih =>
      obtain ⟨hm, hrest⟩ := List.pairwise_cons.mp h
      rw [BasicJson.insert]
      split
      · next hlt =>
          refine List.pairwise_cons.mpr ⟨fun m' hm' => ?_, h⟩
          obtain rfl | hm' := List.mem_cons.mp hm'
          · exact hlt
          · exact Std.lt_trans hlt (hm m' hm')
      · next hnlt =>
          split
          · next heq => exact List.pairwise_cons.mpr ⟨heq ▸ hm, hrest⟩
          · next hne =>
              have hlt : m.1 < key := Std.lt_of_le_of_ne (Std.not_lt.mp hnlt) (Ne.symm hne)
              refine List.pairwise_cons.mpr ⟨fun m' hm' => ?_, ih hrest⟩
              obtain rfl | hm' := mem_insert hm'
              · exact hlt
              · exact hm m' hm'

/-- A key behind all others goes to the end. -/
theorem insert_of_forall_lt {key : Bytes} {value : BasicJson} {members : List (Bytes × BasicJson)}
    (h : ∀ m ∈ members, m.1 < key) : insert key value members = members ++ [(key, value)] := by
  induction members with
  | nil => rfl
  | cons m members ih =>
      have hm := h m List.mem_cons_self
      have hnlt : ¬ key < m.1 := fun hlt => Std.lt_irrefl (Std.lt_trans hm hlt)
      have hne : key ≠ m.1 := fun heq => Std.lt_irrefl (heq ▸ hm)
      rw [insert, if_neg hnlt, if_neg hne, ih fun m' hm' => h m' (List.mem_cons_of_mem m hm')]
      rfl

/-- **Members that are in order stay as they are.** -/
theorem ofMembers_of_ordered {members : List (Bytes × BasicJson)} (h : Ordered members) :
    ofMembers members = .object members := by
  suffices hfold : members.foldl (fun object m => insert m.1 m.2 object) [] = members by
    rw [ofMembers, hfold]
  induction members using List.reverseRecOn with
  | nil => rfl
  | append_singleton members m ih =>
      obtain ⟨hmembers, -, hlt⟩ := List.pairwise_append.mp h
      rw [List.foldl_append, ih hmembers]
      exact insert_of_forall_lt fun m' hm' => hlt m' hm' m (List.mem_singleton.mpr rfl)

/-- What becomes of members that are assigned in turn. -/
theorem exists_ofMembers (members : List (Bytes × BasicJson)) :
    ∃ object, ofMembers members = .object object ∧ Ordered object ∧
      object.length ≤ members.length ∧ ∀ m ∈ object, m ∈ members := by
  refine ⟨_, rfl, ?_⟩
  induction members using List.reverseRecOn with
  | nil => exact ⟨List.Pairwise.nil, Nat.le_refl 0, fun m hm => hm⟩
  | append_singleton members m ih =>
      obtain ⟨hord, hlen, hmem⟩ := ih
      rw [List.foldl_append, List.length_append]
      refine ⟨hord.insert, (length_insert_le ..).trans (Nat.add_le_add_right hlen 1),
        fun m' hm' => ?_⟩
      obtain rfl | hm' := mem_insert hm'
      · exact List.mem_append.mpr (.inr (List.mem_singleton.mpr rfl))
      · exact List.mem_append.mpr (.inl (hmem m' hm'))

/-! ## values that travel -/

/-- The sizes are those of containers, and no binary value has a subtype. -/
inductive Portable : BasicJson → Prop
  | null : Portable .null
  | boolean (b : Bool) : Portable (.boolean b)
  | numberInteger (n : Int64) : Portable (.numberInteger n)
  | numberUnsigned (n : UInt64) : Portable (.numberUnsigned n)
  | numberFloat (word : UInt64) : Portable (.numberFloat word)
  | string {s : Bytes} : s.length < 2 ^ 64 → Portable (.string s)
  | array {elements : List BasicJson} :
      elements.length ≤ maxArraySize → (∀ j ∈ elements, Portable j) → Portable (.array elements)
  | binary {data : Bytes} : data.length < 2 ^ 64 → Portable (.binary data none)
  | object {members : List (Bytes × BasicJson)} :
      members.length ≤ maxObjectSize → Ordered members → (∀ m ∈ members, m.1.length < 2 ^ 64) →
      (∀ m ∈ members, Portable m.2) → Portable (.object members)

/-- A double as it arrives. -/
def receivedFloat (word : UInt64) : UInt64 :=
  .ofNat (BinaryFormat.double.convert .double word.toNat)

mutual

/-- A value as it arrives: integers that are not negative become unsigned, and
all NaNs become one. -/
def received : BasicJson → BasicJson
  | .numberInteger n =>
      if 0 ≤ n then .numberUnsigned n.toUInt64 else .numberInteger n
  | .numberFloat word => .numberFloat (receivedFloat word)
  | .array elements => .array (receivedElements elements)
  | .object members => .object (receivedMembers members)
  | j => j

def receivedElements : List BasicJson → List BasicJson
  | [] => []
  | j :: elements => received j :: receivedElements elements

def receivedMembers : List (Bytes × BasicJson) → List (Bytes × BasicJson)
  | [] => []
  | (key, j) :: members => (key, received j) :: receivedMembers members

end

theorem receivedElements_eq (elements : List BasicJson) :
    receivedElements elements = elements.map received := by
  induction elements with
  | nil => rfl
  | cons j elements ih => rw [receivedElements, ih, List.map_cons]

theorem receivedMembers_eq (members : List (Bytes × BasicJson)) :
    receivedMembers members = members.map fun m => (m.1, received m.2) := by
  induction members with
  | nil => rfl
  | cons m members ih => rw [receivedMembers, ih, List.map_cons]

end BasicJson

end GhostDag
