import GhostDag.Cbor.Grammar
import GhostDag.Cbor.Writer

/-!
# GhostDag.Cbor.RoundTrip

What `to_cbor` writes, `from_cbor` reads (`fromCbor_toCbor`).  A value that
has been read can be sent on and stays as it is, and neither a part of its
bytes nor more than these is accepted (`accepted_of_fromCbor`).
-/

namespace GhostDag

open Parsing (Grammar Parses Repeated Until)

namespace BasicJson

/-! ## what is written stands for what is read -/

/-- The first byte of a value, and the number that goes with it. -/
theorem exists_writeHead {major n : Nat} (hmajor : major < 8) (hn : n < 2 ^ 64) :
    ∃ c u, writeHead major n = c :: u ∧ c.toNat / 0x20 = major ∧ c.toNat % 0x20 ≠ 0x1F ∧
      Argument (c.toNat % 0x20) u n := by
  have hfirst : ∀ info < 0x20, (UInt8.ofNat (major * 0x20 + info)).toNat = major * 0x20 + info := by
    intro info hinfo
    rw [UInt8.toNat_ofNat']
    omega
  have hfollows : ∀ width, n < 2 ^ (8 * width) → ∀ info < 0x1F, 0x17 < info →
      (info, width) ∈ [(0x18, 1), (0x19, 2), (0x1A, 4), (0x1B, 8)] →
      ∃ c u, UInt8.ofNat (major * 0x20 + info) :: BigEndian.encode width n = c :: u ∧
        c.toNat / 0x20 = major ∧ c.toNat % 0x20 ≠ 0x1F ∧ Argument (c.toNat % 0x20) u n := by
    intro width hwidth info hlt _ hmem
    have hmod : (major * 0x20 + info) % 0x20 = info := by omega
    have harg : Argument info (BigEndian.encode width n) n := by
      have h : Argument info (BigEndian.encode width n) (BigEndian.decode _) :=
        .follows (by rwa [BigEndian.length_encode])
      rwa [BigEndian.decode_encode hwidth] at h
    refine ⟨_, _, rfl, ?_⟩
    rw [hfirst info (by omega), hmod]
    exact ⟨by omega, by omega, harg⟩
  unfold writeHead
  split
  · next hle =>
      have hmod : (major * 0x20 + n) % 0x20 = n := by omega
      refine ⟨_, _, rfl, ?_⟩
      rw [hfirst n (by omega), hmod]
      exact ⟨by omega, by omega, .direct hle⟩
  · split
    · exact hfollows 1 (by omega) 0x18 (by decide) (by decide) (by decide)
    · split
      · exact hfollows 2 (by omega) 0x19 (by decide) (by decide) (by decide)
      · split
        · exact hfollows 4 (by omega) 0x1A (by decide) (by decide) (by decide)
        · exact hfollows 8 (by omega) 0x1B (by decide) (by decide) (by decide)

theorem chunk_write {major : Nat} (hmajor : major < 8) {s : Bytes} (hs : s.length < 2 ^ 64) :
    Chunk major (writeHead major s.length ++ s) s := by
  obtain ⟨c, u, hw, hc, hinfo, harg⟩ := exists_writeHead hmajor hs
  rw [hw]
  exact .definite hc hinfo harg

/-- A container whose pieces have been written. -/
theorem container_write {α : Type} {major maxSize : Nat} (hmajor : major < 8)
    (hmax : maxSize < 2 ^ 64 - 1) {G : Grammar UInt8 α} (make : List α → BasicJson) {v : Bytes}
    {as : List α} (hlen : as.length ≤ maxSize) (hv : Repeated G v as) :
    Container major maxSize G make (writeHead major as.length ++ v) (make as) := by
  obtain ⟨c, u, hw, hc, hinfo, harg⟩ := exists_writeHead hmajor (show as.length < 2 ^ 64 by omega)
  rw [hw]
  exact .known hc (.known hinfo harg (by omega)) hlen hv

/-- A number of a format, written in full. -/
theorem item_float {F : BinaryFormat} {c : UInt8} {width w : Nat}
    (hmem : (c.toNat, F, width) ∈
      [(0xF9, BinaryFormat.half, 2), (0xFA, .single, 4), (0xFB, .double, 8)])
    (hw : w < 2 ^ (8 * width)) :
    Item (c :: BigEndian.encode width w) (.numberFloat (.ofNat (F.convert .double w))) := by
  have hc : c.toNat / 0x20 = 7 ∧ (c.toNat % 0x20, F, (BigEndian.encode width w).length) ∈
      [(0x19, BinaryFormat.half, 2), (0x1A, .single, 4), (0x1B, .double, 8)] := by
    rw [BigEndian.length_encode]
    simp only [List.mem_cons, Prod.mk.injEq, List.not_mem_nil, or_false] at hmem
    obtain ⟨hc, rfl, rfl⟩ | ⟨hc, rfl, rfl⟩ | ⟨hc, rfl, rfl⟩ := hmem <;> rw [hc] <;> decide
  have hitem := Item.simple hc.1 (.float hc.2)
  rwa [BigEndian.decode_encode hw] at hitem

/-- A double becomes what it is received as, in two, four or eight bytes. -/
theorem item_writeFloat (word : UInt64) :
    Item (writeFloat word.toNat) (.numberFloat (receivedFloat word)) := by
  have hlt := word.toNat_lt
  unfold writeFloat receivedFloat
  split
  · next hnan =>
      have hitem : Item (0xF9 :: BigEndian.encode 2 0x7E00)
          (.numberFloat (.ofNat (BinaryFormat.half.convert .double 0x7E00))) :=
        item_float (by decide) (by decide)
      rw [BinaryFormat.convert, if_pos hnan]
      exact hitem
  · next hnan =>
      split
      · next hinf =>
          have hsign : BinaryFormat.double.signBit = 2 ^ 63 := rfl
          rw [BinaryFormat.convert, if_neg hnan, if_pos hinf, BinaryFormat.withSignOf, hsign]
          split
          · next hpos =>
              have hitem : Item (0xF9 :: BigEndian.encode 2 0x7C00)
                  (.numberFloat (.ofNat (BinaryFormat.half.convert .double 0x7C00))) :=
                item_float (by decide) (by decide)
              rw [Nat.div_eq_of_lt hpos]
              exact hitem
          · next hneg =>
              have hitem : Item (0xF9 :: BigEndian.encode 2 0xFC00)
                  (.numberFloat (.ofNat (BinaryFormat.half.convert .double 0xFC00))) :=
                item_float (by decide) (by decide)
              have hone : word.toNat / 2 ^ 63 = 1 := by omega
              rw [hone]
              exact hitem
      · next hinf =>
          rw [writeCompactFloat]
          split
          · next single hsome =>
              have hitem : Item (0xFA :: BigEndian.encode 4 single)
                  (.numberFloat (.ofNat (BinaryFormat.single.convert .double single))) :=
                item_float (by decide) (BinaryFormat.lt_of_narrow hsome hlt)
              rwa [BinaryFormat.convert_narrow hsome,
                ← BinaryFormat.convert_self (F := .double) (Nat.le_of_not_lt hnan)] at hitem
          · exact item_float (by decide) hlt

/-- **What is written stands for what is received.** -/
theorem item_writeCbor {j : BasicJson} (h : j.Portable) : Item j.writeCbor j.received := by
  have hnumber : ∀ n : UInt64, Item (writeHead 0 n.toNat) (.numberUnsigned n) := by
    intro n
    obtain ⟨c, u, hw, hc, -, harg⟩ := exists_writeHead (by decide : 0 < 8) n.toNat_lt
    have hitem := Item.unsigned hc harg
    rwa [UInt64.ofNat_toNat, ← hw] at hitem
  induction h with
  | null => exact .simple (by decide) (.null rfl)
  | boolean b =>
      cases b
      · exact .simple (by decide) (.false rfl)
      · exact .simple (by decide) (.true rfl)
  | numberInteger n =>
      rw [writeCbor, received]
      split
      · next hn =>
          have hnat : n.toUInt64.toNat = n.toInt.toNat := Int64.toNat_toUInt64_of_le hn
          rw [← hnat]
          exact hnumber n.toUInt64
      · next hn =>
          have hle : -(2 ^ 63) ≤ n.toInt := Int64.le_toInt n
          have hneg : n.toInt < 0 := not_le.mp fun hle => hn (Int64.le_iff_toInt_le.mpr hle)
          obtain ⟨c, u, hw, hc, -, harg⟩ :=
            exists_writeHead (by decide : 1 < 8) (show (-1 - n.toInt).toNat < 2 ^ 64 by omega)
          have hitem := Item.negative hc harg (by omega)
          have hback : (-1 - ((-1 - n.toInt).toNat : Int)) = n.toInt := by omega
          rwa [hback, Int64.ofInt_toInt, ← hw] at hitem
  | numberUnsigned n => exact hnumber n
  | numberFloat word => exact item_writeFloat word
  | string hs => exact .string (chunk_write (by decide) hs)
  | @array elements hlen _ ih =>
      rw [writeCbor, received, writeElements_eq, receivedElements_eq]
      have hlen' : (elements.map received).length ≤ maxArraySize := by rwa [List.length_map]
      have hitem := container_write (by decide : 4 < 8) (by decide) .array hlen'
        (Repeated.of_forall ih)
      rw [List.length_map] at hitem
      exact .array hitem
  | binary hs => exact .binary (chunk_write (by decide) hs)
  | @object members hlen hord hkeys _ ih =>
      rw [writeCbor, received, writeMembers_eq, receivedMembers_eq]
      have hord' : Ordered (members.map fun m => (m.1, received m.2)) :=
        List.pairwise_map.mpr hord
      have hlen' : (members.map fun m => (m.1, received m.2)).length ≤ maxObjectSize := by
        rwa [List.length_map]
      have hmember : ∀ m ∈ members,
          Member (writeHead 3 m.1.length ++ m.1 ++ m.2.writeCbor) (m.1, received m.2) :=
        fun m hm => .mk (chunk_write (by decide) (hkeys m hm)) (ih m hm)
      have hitem := container_write (by decide : 5 < 8) (by decide) ofMembers hlen'
        (Repeated.of_forall hmember)
      rw [List.length_map, ofMembers_of_ordered hord'] at hitem
      exact .object hitem

/-- **Round trip**: a value that is written and read again is received. -/
theorem fromCbor_toCbor {j : BasicJson} (h : j.Portable) : fromCbor j.toCbor = .ok j.received :=
  fromCbor_eq_ok_iff.mpr (item_writeCbor h)

/-- `{"a": [-5, 1.5, "x"]}`. -/
def mixed : BasicJson := .object [([0x61],
  .array [.numberInteger (-5), .numberFloat 0x3FF8000000000000, .string [0x78]])]

theorem portable_mixed : mixed.Portable := by
  refine .object (by decide) (List.pairwise_singleton _ _) (by simp) fun m hm => ?_
  obtain rfl := List.mem_singleton.mp hm
  refine .array (by decide) fun j hj => ?_
  simp only [List.mem_cons, List.not_mem_nil, or_false] at hj
  obtain rfl | rfl | rfl := hj
  · exact .numberInteger _
  · exact .numberFloat _
  · exact .string (by decide)

/-- The number takes four bytes, as a `float` has it. -/
theorem fromCbor_toCbor_mixed :
    mixed.toCbor = [0xA1, 0x61, 0x61, 0x83, 0x24, 0xFA, 0x3F, 0xC0, 0x00, 0x00, 0x61, 0x78] ∧
      fromCbor mixed.toCbor = .ok mixed.received :=
  ⟨by decide +kernel, fromCbor_toCbor portable_mixed⟩

/-! ## what is read -/

/-- A double that has been received is received as it is. -/
theorem receivedFloat_convert {F : BinaryFormat} {w width : Nat}
    (hF : (F, width) ∈ [(BinaryFormat.half, 2), (.single, 4), (.double, 8)])
    (hw : w < 2 ^ (8 * width)) :
    receivedFloat (.ofNat (F.convert .double w)) = .ofNat (F.convert .double w) := by
  have hconvert : F.convert .double w < 2 * BinaryFormat.double.signBit ∧
      BinaryFormat.double.convert .double (F.convert .double w) = F.convert .double w := by
    simp only [List.mem_cons, Prod.mk.injEq, List.not_mem_nil, or_false] at hF
    obtain ⟨rfl, rfl⟩ | ⟨rfl, rfl⟩ | ⟨rfl, rfl⟩ := hF <;>
      exact BinaryFormat.convert_convert hw (by decide) (by decide) (by decide) (by decide)
  rw [receivedFloat, UInt64.toNat_ofNat_of_lt' hconvert.1, hconvert.2]

/-- What a value has that `from_cbor` returned: it can be sent on, and stays
as it is. -/
structure Settled (j : BasicJson) : Prop where
  portable : j.Portable
  received : j.received = j

/-- A chunk is no longer than its bytes. -/
theorem Chunk.length_le {major : Nat} {u data : Bytes} (h : Chunk major u data) :
    data.length ≤ u.length := by
  induction hn : u.length using Nat.strong_induction_on generalizing u data with
  | _ n ih =>
      subst hn
      cases h with
      | definite =>
          simp only [List.length_cons, List.length_append]
          omega
      | indefinite _ _ hu =>
          rw [List.length_flatten, List.length_cons]
          exact (hu.sum_lt fun v a hv ha =>
            ih v.length (hv.trans (Nat.lt_succ_self _)) ha rfl).le.trans (Nat.le_succ _)

/-- Values that make up an array. -/
theorem settled_array {elements : List BasicJson} (hlen : elements.length ≤ maxArraySize)
    (h : ∀ j ∈ elements, Settled j) : Settled (.array elements) where
  portable := .array hlen fun j hj => (h j hj).portable
  received := by
    rw [received, receivedElements_eq, List.map_congr_left fun j hj => (h j hj).received,
      List.map_id']

/-- Members that make up an object. -/
theorem settled_object {members : List (Bytes × BasicJson)}
    (hlen : members.length ≤ maxObjectSize)
    (h : ∀ m ∈ members, m.1.length < 2 ^ 64 ∧ Settled m.2) : Settled (ofMembers members) := by
  obtain ⟨object, hobject, hord, hle, hmem⟩ := exists_ofMembers members
  rw [hobject]
  constructor
  case portable =>
    exact .object (hle.trans hlen) hord (fun m hm => (h m (hmem m hm)).1)
      fun m hm => (h m (hmem m hm)).2.portable
  case received =>
    have hmap : object.map (fun m => (m.1, m.2.received)) = object.map id :=
      List.map_congr_left fun m hm => by rw [(h m (hmem m hm)).2.received, id]
    rw [received, receivedMembers_eq, hmap, List.map_id]

theorem Item.settled {u : Bytes} {j : BasicJson} (h : Item u j) (hu : u.length < 2 ^ 56) :
    Settled j := by
  have harray : 2 ^ 56 ≤ maxArraySize := by decide
  have hobject : 2 ^ 56 ≤ maxObjectSize := by decide
  induction hn : u.length using Nat.strong_induction_on generalizing u j with
  | _ n ih =>
  subst hn
  cases h with
  | unsigned => exact ⟨.numberUnsigned _, rfl⟩
  | @negative _ _ n _ _ hlt =>
      refine ⟨.numberInteger _, ?_⟩
      have hint : (Int64.ofInt (-1 - (n : Int))).toInt = -1 - n :=
        Int64.toInt_ofInt_of_le (by omega) (by omega)
      have hneg : ¬ (0 : Int64) ≤ .ofInt (-1 - (n : Int)) := by
        rw [Int64.le_iff_toInt_le, hint, Int64.toInt_zero]
        omega
      rw [received, if_neg hneg]
  | binary h =>
      have := h.length_le
      exact ⟨.binary (by omega), rfl⟩
  | string h =>
      have := h.length_le
      exact ⟨.string (by omega), rfl⟩
  | array h =>
      cases h with
      | @known c v w elements _ _ hlen hw =>
          simp only [List.length_cons, List.length_append] at hu ih
          exact settled_array hlen (hw.forall fun x a hx ha =>
            ih x.length (by omega) ha (by omega) rfl)
      | @unknown c v w elements _ _ hw =>
          simp only [List.length_cons, List.length_append] at hu ih
          have hlen := hw.length_lt
          exact settled_array (by omega) (hw.forall fun x a hx ha =>
            ih x.length (by omega) ha (by omega) rfl)
  | object h =>
      have hmember : ∀ x m, x.length < u.length → Member x m →
          m.1.length < 2 ^ 64 ∧ Settled m.2 := by
        intro x m hx hm
        cases hm with
        | @mk v w key j hkey hj =>
            rw [List.length_append] at hx
            have hle := hkey.length_le
            exact ⟨show key.length < 2 ^ 64 by omega, ih w.length (by omega) hj (by omega) rfl⟩
      cases h with
      | @known c v w members _ _ hlen hw =>
          simp only [List.length_cons, List.length_append] at hu hmember
          exact settled_object hlen (hw.forall fun x m hx hm => hmember x m (by omega) hm)
      | @unknown c v w members _ _ hw =>
          simp only [List.length_cons, List.length_append] at hu hmember
          have hlen := hw.length_lt
          exact settled_object (by omega) (hw.forall fun x m hx hm => hmember x m (by omega) hm)
  | @simple _ w _ _ h =>
      cases h with
      | «false» => exact ⟨.boolean false, rfl⟩
      | «true» => exact ⟨.boolean true, rfl⟩
      | null => exact ⟨.null, rfl⟩
      | @float _ F hF =>
          have hF' : (F, w.length) ∈ [(BinaryFormat.half, 2), (.single, 4), (.double, 8)] := by
            simp only [List.mem_cons, Prod.mk.injEq, List.not_mem_nil, or_false] at hF ⊢
            tauto
          exact ⟨.numberFloat _, by rw [received, receivedFloat_convert hF' (BigEndian.decode_lt w)]⟩

/-- The bytes of a value are not a part of those of another one. -/
theorem Item.prefix_free {u v : Bytes} {a b : BasicJson} (hu : Item u a) (hv : Item (u ++ v) b) :
    v = [] ∧ a = b := by
  have hparses := parses_getFirst not_item_nil (parses_parseCborInternal (u ++ v).length)
  exact hparses.prefix_free hu hv (Nat.lt_succ_self _)

/-- What holds of bytes that `from_cbor` accepts: the value is settled, it is
what comes back when it is written and read, and the bytes are neither a part
of other bytes that are accepted nor do they have such a part. -/
structure Accepted (input : Bytes) (j : BasicJson) : Prop where
  settled : Settled j
  again : fromCbor j.toCbor = .ok j
  complete : ∀ more, more ≠ [] → ∀ j', fromCbor (input ++ more) ≠ .ok j'
  whole : ∀ part, part <+: input → part ≠ input → ∀ j', fromCbor part ≠ .ok j'

/-- **What the reader accepts**, of all inputs that fit into memory. -/
theorem accepted_of_fromCbor {input : Bytes} {j : BasicJson} (h : fromCbor input = .ok j)
    (hlen : input.length < 2 ^ 56) : Accepted input j := by
  have hitem := fromCbor_eq_ok_iff.mp h
  have hsettled := hitem.settled hlen
  constructor
  case settled => exact hsettled
  case again =>
    have hwritten := fromCbor_eq_ok_iff.mpr (item_writeCbor hsettled.portable)
    rwa [hsettled.received] at hwritten
  case complete =>
    exact fun more hne j' hj' => hne (hitem.prefix_free (fromCbor_eq_ok_iff.mp hj')).1
  case whole =>
    rintro part ⟨more, rfl⟩ hne j' hj'
    refine hne ?_
    rw [((fromCbor_eq_ok_iff.mp hj').prefix_free hitem).1, List.append_nil]

/-- A chunked string in an array of indefinite length, which no writer writes. -/
theorem accepted_chunks :
    Accepted [0x9F, 0x7F, 0x61, 0x78, 0x61, 0x79, 0xFF, 0xFF] (.array [.string [0x78, 0x79]]) :=
  accepted_of_fromCbor (by rfl) (by decide)

end BasicJson

end GhostDag
