import GhostDag.Cbor.Reader
import GhostDag.Lib.Loops

/-!
# GhostDag.Cbor.Grammar

Which bytes stand for which values: the grammar of `parse_cbor_internal`.

`from_cbor` accepts exactly the bytes of one value (`fromCbor_eq_ok_iff`), and
it never gives up early (`fromCbor_ne_outOfFuel`).
-/

namespace GhostDag

open Parsing (Grammar Parses Repeated Until)

namespace BasicJson

/-- A number that goes with a first byte: it is in the byte, or the bytes
behind it spell it out. -/
inductive Argument (info : Nat) : Grammar UInt8 Nat
  | direct : info ≤ 0x17 → Argument info [] info
  | follows {u : Bytes} : (info, u.length) ∈ [(0x18, 1), (0x19, 2), (0x1A, 4), (0x1B, 8)] →
      Argument info u (BigEndian.decode u)

theorem Argument.info_le {info n : Nat} {u : Bytes} (h : Argument info u n) : info ≤ 0x1B := by
  cases h with
  | direct h => omega
  | follows h => simp at h; omega

/-- Strings or binary data, whole or in chunks. -/
inductive Chunk (major : Nat) : Grammar UInt8 Bytes
  | definite {c : UInt8} {u data : Bytes} :
      c.toNat / 0x20 = major → c.toNat % 0x20 ≠ 0x1F → Argument (c.toNat % 0x20) u data.length →
      Chunk major (c :: (u ++ data)) data
  | indefinite {c : UInt8} {u : Bytes} {chunks : List Bytes} :
      c.toNat / 0x20 = major → c.toNat % 0x20 = 0x1F → Until (· == 0xFF) (Chunk major) u chunks →
      Chunk major (c :: u) chunks.flatten

/-- The size of a container, if it is known. -/
inductive Size (info : Nat) : Grammar UInt8 (Option Nat)
  | known {u : Bytes} {n : Nat} :
      info ≠ 0x1F → Argument info u n → n ≠ 2 ^ 64 - 1 → Size info u (some n)
  | unknown {u : Bytes} : info ≠ 0x1F → Argument info u (2 ^ 64 - 1) → Size info u none
  | indefinite : info = 0x1F → Size info [] none

/-- Containers that begin with `major`, of pieces that `G` describes. -/
inductive Container {α : Type} (major maxSize : Nat) (G : Grammar UInt8 α)
    (make : List α → BasicJson) : Grammar UInt8 BasicJson
  | known {c : UInt8} {u v : Bytes} {as : List α} :
      c.toNat / 0x20 = major → Size (c.toNat % 0x20) u (some as.length) → as.length ≤ maxSize →
      Repeated G v as → Container major maxSize G make (c :: (u ++ v)) (make as)
  | unknown {c : UInt8} {u v : Bytes} {as : List α} :
      c.toNat / 0x20 = major → Size (c.toNat % 0x20) u none → Until (· == 0xFF) G v as →
      Container major maxSize G make (c :: (u ++ v)) (make as)

/-- The values from `0xE0` on. -/
inductive Simple (info : Nat) : Grammar UInt8 BasicJson
  | false : info = 0x14 → Simple info [] (.boolean false)
  | true : info = 0x15 → Simple info [] (.boolean true)
  | null : info = 0x16 → Simple info [] .null
  | float {u : Bytes} {F : BinaryFormat} :
      (info, F, u.length) ∈
        [(0x19, BinaryFormat.half, 2), (0x1A, .single, 4), (0x1B, .double, 8)] →
      Simple info u (.numberFloat (.ofNat (F.convert .double (BigEndian.decode u))))

mutual

/-- Values. -/
inductive Item : Grammar UInt8 BasicJson
  | unsigned {c : UInt8} {u : Bytes} {n : Nat} :
      c.toNat / 0x20 = 0 → Argument (c.toNat % 0x20) u n → Item (c :: u) (.numberUnsigned (.ofNat n))
  | negative {c : UInt8} {u : Bytes} {n : Nat} :
      c.toNat / 0x20 = 1 → Argument (c.toNat % 0x20) u n → n < 2 ^ 63 →
      Item (c :: u) (.numberInteger (.ofInt (-1 - n)))
  | binary {u data : Bytes} : Chunk 2 u data → Item u (.binary data none)
  | string {u s : Bytes} : Chunk 3 u s → Item u (.string s)
  | array {u : Bytes} {j : BasicJson} : Container 4 maxArraySize Item .array u j → Item u j
  | object {u : Bytes} {j : BasicJson} : Container 5 maxObjectSize Member ofMembers u j → Item u j
  | simple {c : UInt8} {u : Bytes} {j : BasicJson} :
      c.toNat / 0x20 = 7 → Simple (c.toNat % 0x20) u j → Item (c :: u) j

/-- Members of objects. -/
inductive Member : Grammar UInt8 (Bytes × BasicJson)
  | mk {u v key : Bytes} {j : BasicJson} : Chunk 3 u key → Item v j → Member (u ++ v) (key, j)

end

/-! ## nothing is empty -/

theorem not_chunk_nil (major : Nat) (data : Bytes) : ¬ Chunk major [] data := by
  intro h
  cases h

theorem not_item_nil (j : BasicJson) : ¬ Item [] j := by
  intro h
  cases h with
  | binary h => exact not_chunk_nil 2 _ h
  | string h => exact not_chunk_nil 3 _ h
  | array h => cases h
  | object h => cases h

theorem not_member_nil (m : Bytes × BasicJson) : ¬ Member [] m := by
  intro h
  generalize hw : ([] : Bytes) = w at h
  cases h with
  | mk hu _ =>
      obtain ⟨rfl, -⟩ := List.append_eq_nil_iff.mp hw.symm
      exact not_chunk_nil 3 _ hu

/-! ## the reader reads it -/

theorem parses_getFirst {α : Type} {n : Nat} {G : Grammar UInt8 α}
    {after : UInt8 → Parsing.Reader Failure UInt8 α} (hG : ∀ a, ¬ G [] a)
    (h : ∀ c, Parses .outOfFuel n (after c) fun v a => G (c :: v) a) :
    Parses .outOfFuel (n + 1) (getFirst after) G := Parses.cons (by decide) hG h

theorem parses_parseError {α : Type} (n id : Nat) :
    Parses Failure.outOfFuel n (fun _ : Bytes => .error (.parseError id)) fun _ (_ : α) => False :=
  Parses.error (by simp)

theorem parses_getNumber (n width : Nat) :
    Parses .outOfFuel n (getNumber width)
      fun u (a : Nat) => u.length = width ∧ a = BigEndian.decode u :=
  ((Parses.take (by decide) width).map BigEndian.decode).congr fun u a => by
    constructor
    · rintro ⟨_, ⟨hlen, rfl⟩, rfl⟩
      exact ⟨hlen, rfl⟩
    · rintro ⟨hlen, rfl⟩
      exact ⟨u, ⟨hlen, rfl⟩, rfl⟩

theorem argument_of_follows {info width : Nat}
    (h : ∀ w, (info, w) ∈ [(0x18, 1), (0x19, 2), (0x1A, 4), (0x1B, 8)] ↔ w = width)
    (hinfo : ¬ info ≤ 0x17) (u : Bytes) (a : Nat) :
    (u.length = width ∧ a = BigEndian.decode u) ↔ Argument info u a := by
  constructor
  · rintro ⟨hlen, rfl⟩
    exact .follows ((h _).mpr hlen)
  · intro hu
    cases hu with
    | direct hle => exact absurd hle hinfo
    | follows hmem => exact ⟨(h _).mp hmem, rfl⟩

theorem parses_getArgument (n error info : Nat) :
    Parses .outOfFuel n (getArgument error info) (Argument info) := by
  unfold getArgument
  split
  · next hle =>
      refine (Parses.ok info).congr fun u a => ?_
      constructor
      · rintro ⟨rfl, rfl⟩
        exact .direct hle
      · intro hu
        cases hu with
        | direct => exact ⟨rfl, rfl⟩
        | follows hmem => simp at hmem; omega
  · next hgt =>
      split
      · next h => exact (parses_getNumber n 1).congr (argument_of_follows (by simp [h]) hgt)
      · split
        · next h => exact (parses_getNumber n 2).congr (argument_of_follows (by simp [h]) hgt)
        · split
          · next h => exact (parses_getNumber n 4).congr (argument_of_follows (by simp [h]) hgt)
          · split
            · next h => exact (parses_getNumber n 8).congr (argument_of_follows (by simp [h]) hgt)
            · refine (parses_parseError n error).congr fun u a => ?_
              constructor
              · exact False.elim
              · intro hu
                cases hu with
                | direct hle => exact absurd hle hgt
                | follows hmem => simp at hmem; omega

theorem parses_getBytes (major fuel : Nat) (c : UInt8) :
    Parses .outOfFuel fuel (getBytes major fuel c) fun u data => Chunk major (c :: u) data := by
  induction fuel generalizing c with
  | zero =>
      exact ⟨fun _ _ _ hrun => (by cases hrun), fun _ _ _ _ hlt => absurd hlt (Nat.not_lt_zero _),
        fun _ hlt => absurd hlt (Nat.not_lt_zero _)⟩
  | succ fuel ih =>
      rw [getBytes]
      split
      · next hmajor =>
          split
          · next hinfo =>
              refine ((Parses.untilStop (by decide) ih).map List.flatten).congr fun u data => ?_
              constructor
              · rintro ⟨chunks, hu, rfl⟩
                exact .indefinite hmajor hinfo hu
              · intro hu
                cases hu with
                | definite _ hdef => exact absurd hinfo hdef
                | @indefinite _ _ chunks _ _ hu => exact ⟨chunks, hu, rfl⟩
          · next hinfo =>
              refine ((parses_getArgument (fuel + 1) 113 (c.toNat % 0x20)).bind fun length =>
                Parses.take (by decide) length).congr fun u data => ?_
              constructor
              · rintro ⟨v, _, n, rfl, hv, rfl, rfl⟩
                exact .definite hmajor hinfo hv
              · intro hu
                generalize hw : c :: u = w at hu
                cases hu with
                | @definite _ v data _ _ hv =>
                    cases hw
                    exact ⟨v, data, data.length, rfl, hv, rfl, rfl⟩
                | indefinite _ hindef =>
                    cases hw
                    exact absurd hindef hinfo
      · next hmajor =>
          refine (parses_parseError (fuel + 1) 113).congr fun u data => ?_
          constructor
          · exact False.elim
          · intro hu
            cases hu with
            | definite h => exact absurd h hmajor
            | indefinite h => exact absurd h hmajor

theorem parses_getSize (n info : Nat) : Parses .outOfFuel n (getSize info) (Size info) := by
  unfold getSize
  split
  · next h =>
      refine (Parses.ok none).congr fun u a => ?_
      constructor
      · rintro ⟨rfl, rfl⟩
        exact .indefinite h
      · intro hu
        cases hu with
        | known hne => exact absurd h hne
        | unknown hne => exact absurd h hne
        | indefinite => exact ⟨rfl, rfl⟩
  · next h =>
      refine ((parses_getArgument n 112 info).map
        fun size => if size = 2 ^ 64 - 1 then none else some size).congr fun u a => ?_
      constructor
      · rintro ⟨size, hu, rfl⟩
        split
        · next hmax => exact .unknown h (hmax ▸ hu)
        · next hmax => exact .known h hu hmax
      · intro hu
        cases hu with
        | @known _ size _ hu hmax => exact ⟨size, hu, (if_neg hmax).symm⟩
        | unknown _ hu => exact ⟨2 ^ 64 - 1, hu, rfl⟩
        | indefinite hindef => exact absurd hindef h

theorem parses_getContainer {α : Type} {n major maxSize : Nat} {G : Grammar UInt8 α}
    {make : List α → BasicJson} {element : UInt8 → Parsing.Reader Failure UInt8 α}
    (hG : ∀ a, ¬ G [] a) (h : ∀ c, Parses .outOfFuel n (element c) fun v a => G (c :: v) a)
    {c : UInt8} (hc : c.toNat / 0x20 = major) :
    Parses .outOfFuel (n + 1)
      (fun input => getSize (c.toNat % 0x20) input >>= fun r =>
        getContainer maxSize make element r.1 r.2)
      fun u j => Container major maxSize G make (c :: u) j := by
  -- after the size
  have hrest : ∀ size, Parses .outOfFuel (n + 1) (getContainer maxSize make element size)
      fun v j => ∃ as, (match size with
        | some k => k ≤ maxSize ∧ Repeated G v as ∧ as.length = k
        | none => Until (· == 0xFF) G v as) ∧ j = make as := by
    intro size
    cases size with
    | none => exact (Parses.untilStop (by decide) h).map make
    | some k =>
        rw [getContainer]
        split
        · next hlt =>
            refine (Parses.error (by simp)).congr fun v j => ?_
            constructor
            · exact False.elim
            · rintro ⟨_, ⟨hle, -⟩, -⟩
              omega
        · next hle =>
            refine (((parses_getFirst hG h).repeated k).map make).congr fun v j => ?_
            constructor
            · rintro ⟨as, hv, rfl⟩
              exact ⟨as, ⟨Nat.le_of_not_lt hle, hv⟩, rfl⟩
            · rintro ⟨as, ⟨-, hv⟩, rfl⟩
              exact ⟨as, hv, rfl⟩
  refine ((parses_getSize (n + 1) _).bind hrest).congr fun w j => ?_
  constructor
  · rintro ⟨u, v, size, rfl, hu, as, has, rfl⟩
    cases size with
    | none => exact .unknown hc hu has
    | some k =>
        obtain ⟨hle, hv, rfl⟩ := has
        exact .known hc hu hle hv
  · intro hw
    generalize hx : c :: w = x at hw
    cases hw with
    | @known _ u v as _ hu hle hv =>
        cases hx
        exact ⟨u, v, some as.length, rfl, hu, as, ⟨hle, hv, rfl⟩, rfl⟩
    | @unknown _ u v as _ hu hv =>
        cases hx
        exact ⟨u, v, none, rfl, hu, as, hv, rfl⟩

theorem parses_getMember {n fuel : Nat} (hn : n ≤ fuel)
    {parse : UInt8 → Parsing.Reader Failure UInt8 BasicJson}
    (h : ∀ c, Parses .outOfFuel n (parse c) fun v j => Item (c :: v) j) (c : UInt8) :
    Parses .outOfFuel n (getMember fuel parse c) fun u m => Member (c :: u) m := by
  have hnext := (parses_getFirst not_item_nil h).mono (Nat.le_succ n)
  refine (((parses_getBytes 3 fuel c).mono hn).bind fun key =>
    hnext.map fun value => (key, value)).congr fun w m => ?_
  constructor
  · rintro ⟨u, v, key, rfl, hu, value, hv, rfl⟩
    exact .mk hu hv
  · intro hw
    generalize hx : c :: w = x at hw
    cases hw with
    | @mk u v key value hu hv =>
        cases u with
        | nil => exact absurd hu (not_chunk_nil 3 key)
        | cons d u =>
            obtain ⟨rfl, rfl⟩ := List.cons.inj hx
            exact ⟨u, v, key, rfl, hu, value, hv, rfl⟩

theorem parses_getFloat (n : Nat) (F : BinaryFormat) (width : Nat) :
    Parses .outOfFuel n (getFloat F width) fun u j => u.length = width ∧
      j = .numberFloat (.ofNat (F.convert .double (BigEndian.decode u))) :=
  ((parses_getNumber n width).map
    fun word => BasicJson.numberFloat (.ofNat (F.convert .double word))).congr fun u j => by
    constructor
    · rintro ⟨_, ⟨hlen, rfl⟩, rfl⟩
      exact ⟨hlen, rfl⟩
    · rintro ⟨hlen, rfl⟩
      exact ⟨_, ⟨hlen, rfl⟩, rfl⟩

theorem simple_iff {info : Nat} {u : Bytes} {j : BasicJson} : Simple info u j ↔
    match info with
    | 0x14 => u = [] ∧ j = .boolean false
    | 0x15 => u = [] ∧ j = .boolean true
    | 0x16 => u = [] ∧ j = .null
    | 0x19 => u.length = 2 ∧
        j = .numberFloat (.ofNat (BinaryFormat.half.convert .double (BigEndian.decode u)))
    | 0x1A => u.length = 4 ∧
        j = .numberFloat (.ofNat (BinaryFormat.single.convert .double (BigEndian.decode u)))
    | 0x1B => u.length = 8 ∧
        j = .numberFloat (.ofNat (BinaryFormat.double.convert .double (BigEndian.decode u)))
    | _ => False := by
  constructor
  · intro h
    cases h with
    | false h => subst h; exact ⟨rfl, rfl⟩
    | true h => subst h; exact ⟨rfl, rfl⟩
    | null h => subst h; exact ⟨rfl, rfl⟩
    | float h =>
        simp only [List.mem_cons, Prod.mk.injEq, List.not_mem_nil, or_false] at h
        obtain ⟨rfl, rfl, hlen⟩ | ⟨rfl, rfl, hlen⟩ | ⟨rfl, rfl, hlen⟩ := h <;> exact ⟨hlen, rfl⟩
  · intro h
    split at h
    · obtain ⟨rfl, rfl⟩ := h
      exact .false rfl
    · obtain ⟨rfl, rfl⟩ := h
      exact .true rfl
    · obtain ⟨rfl, rfl⟩ := h
      exact .null rfl
    · obtain ⟨hlen, rfl⟩ := h
      exact .float (by simp [hlen])
    · obtain ⟨hlen, rfl⟩ := h
      exact .float (by simp [hlen])
    · obtain ⟨hlen, rfl⟩ := h
      exact .float (by simp [hlen])
    · exact h.elim

theorem parses_getSimple (n info : Nat) : Parses .outOfFuel n (getSimple info) (Simple info) := by
  unfold getSimple
  split
  · refine Parses.congr ?_ fun u j => simple_iff.symm
    exact .ok _
  · refine Parses.congr ?_ fun u j => simple_iff.symm
    exact .ok _
  · refine Parses.congr ?_ fun u j => simple_iff.symm
    exact .ok _
  · refine Parses.congr ?_ fun u j => simple_iff.symm
    exact parses_getFloat n .half 2
  · refine Parses.congr ?_ fun u j => simple_iff.symm
    exact parses_getFloat n .single 4
  · refine Parses.congr ?_ fun u j => simple_iff.symm
    exact parses_getFloat n .double 8
  · refine (parses_parseError n 112).congr fun u j => ⟨fun h => h.elim, fun h => ?_⟩
    cases h with
    | float hmem =>
        simp only [List.mem_cons, Prod.mk.injEq, List.not_mem_nil, or_false] at hmem
        obtain ⟨h, -⟩ | ⟨h, -⟩ | ⟨h, -⟩ := hmem <;> exact absurd h (by assumption)
    | _ h => exact absurd h (by assumption)

theorem Chunk.major_eq {major : Nat} {c : UInt8} {u data : Bytes}
    (h : Chunk major (c :: u) data) : c.toNat / 0x20 = major := by
  cases h with
  | definite h => exact h
  | indefinite h => exact h

theorem Container.major_eq {α : Type} {major maxSize : Nat} {G : Grammar UInt8 α}
    {make : List α → BasicJson} {c : UInt8} {u : Bytes} {j : BasicJson}
    (h : Container major maxSize G make (c :: u) j) : c.toNat / 0x20 = major := by
  cases h with
  | known h => exact h
  | unknown h => exact h

/-- Values by the upper bits of their first byte. -/
theorem item_iff {c : UInt8} {v : Bytes} {j : BasicJson} : Item (c :: v) j ↔
    match c.toNat / 0x20 with
    | 0 => ∃ n, Argument (c.toNat % 0x20) v n ∧ j = .numberUnsigned (.ofNat n)
    | 1 => ∃ n, (Argument (c.toNat % 0x20) v n ∧ n < 2 ^ 63) ∧ j = .numberInteger (.ofInt (-1 - n))
    | 2 => ∃ data, Chunk 2 (c :: v) data ∧ j = .binary data none
    | 3 => ∃ s, Chunk 3 (c :: v) s ∧ j = .string s
    | 4 => Container 4 maxArraySize Item .array (c :: v) j
    | 5 => Container 5 maxObjectSize Member ofMembers (c :: v) j
    | 6 => False
    | _ => Simple (c.toNat % 0x20) v j := by
  constructor
  · intro h
    cases h with
    | unsigned hc hn => rw [hc]; exact ⟨_, hn, rfl⟩
    | negative hc hn hlt => rw [hc]; exact ⟨_, ⟨hn, hlt⟩, rfl⟩
    | binary h => rw [h.major_eq]; exact ⟨_, h, rfl⟩
    | string h => rw [h.major_eq]; exact ⟨_, h, rfl⟩
    | array h => rw [h.major_eq]; exact h
    | object h => rw [h.major_eq]; exact h
    | simple hc h => rw [hc]; exact h
  · intro h
    have hlt := c.toNat_lt
    split at h
    · next hc =>
        obtain ⟨n, hn, rfl⟩ := h
        exact .unsigned hc hn
    · next hc =>
        obtain ⟨n, ⟨hn, hlt⟩, rfl⟩ := h
        exact .negative hc hn hlt
    · obtain ⟨data, h, rfl⟩ := h
      exact .binary h
    · obtain ⟨s, h, rfl⟩ := h
      exact .string h
    · exact .array h
    · exact .object h
    · exact h.elim
    · simp only [imp_false] at *
      exact .simple (by omega) h

theorem parses_negative (n info : Nat) :
    Parses .outOfFuel n (getCborNegativeInteger info)
      fun u j => ∃ m, (Argument info u m ∧ m < 2 ^ 63) ∧ j = .numberInteger (.ofInt (-1 - m)) := by
  have hcheck : ∀ m : Nat, Parses Failure.outOfFuel n
      (fun input : Bytes => if m < 2 ^ 63 then .ok (BasicJson.numberInteger (.ofInt (-1 - m)), input)
        else .error (.parseError 112))
      fun u j => m < 2 ^ 63 ∧ u = [] ∧ j = .numberInteger (.ofInt (-1 - m)) := by
    intro m
    by_cases hm : m < 2 ^ 63
    · simpa only [hm, if_true, true_and] using Parses.ok _
    · simpa only [hm, if_false, false_and] using parses_parseError n 112
  refine ((parses_getArgument n 112 info).bind hcheck).congr fun u j => ?_
  constructor
  · rintro ⟨u, _, m, rfl, hu, hm, rfl, rfl⟩
    exact ⟨m, ⟨by rwa [List.append_nil], hm⟩, rfl⟩
  · rintro ⟨m, ⟨hu, hm⟩, rfl⟩
    exact ⟨u, [], m, (List.append_nil u).symm, hu, hm, rfl, rfl⟩

/-- A chunk whose length can be read. -/
theorem parses_lengthInfo {n major info : Nat} {c : UInt8} (hinfo : c.toNat % 0x20 = info)
    {p : Parsing.Reader Failure UInt8 Bytes} (make : Bytes → BasicJson)
    (h : Parses .outOfFuel n p fun u data => Chunk major (c :: u) data) :
    Parses .outOfFuel n
      (if 0x1B < info ∧ info < 0x1F then fun _ => .error (.parseError 112)
      else fun input => p input >>= fun r => .ok (make r.1, r.2))
      fun u j => ∃ data, Chunk major (c :: u) data ∧ j = make data := by
  split
  · next hbad =>
      refine (parses_parseError n 112).congr fun u j => ?_
      constructor
      · exact False.elim
      · rintro ⟨data, hu, -⟩
        cases hu with
        | definite _ _ harg =>
            have := harg.info_le
            omega
        | indefinite => omega
  · exact h.map make

/-- **The reader reads what the grammar describes**, however deep it nests. -/
theorem parses_parseCborInternal (fuel : Nat) (c : UInt8) :
    Parses .outOfFuel fuel (parseCborInternal fuel c) fun v j => Item (c :: v) j := by
  induction fuel generalizing c with
  | zero =>
      exact ⟨fun _ _ _ hrun => (by cases hrun), fun _ _ _ _ hlt => absurd hlt (Nat.not_lt_zero _),
        fun _ hlt => absurd hlt (Nat.not_lt_zero _)⟩
  | succ fuel ih =>
      rw [parseCborInternal]
      split
      · next hc =>
          refine ((parses_getArgument (fuel + 1) 112 _).map
            fun n => BasicJson.numberUnsigned (.ofNat n)).congr fun v j => ?_
          simp only [item_iff, hc]
      · next hc =>
          refine (parses_negative (fuel + 1) _).congr fun v j => ?_
          simp only [item_iff, hc]
      · next hc =>
          refine (parses_lengthInfo rfl (.binary · none) (parses_getBytes 2 (fuel + 1) c)).congr fun v j => ?_
          simp only [item_iff, hc]
      · next hc =>
          refine (parses_lengthInfo rfl .string (parses_getBytes 3 (fuel + 1) c)).congr fun v j => ?_
          simp only [item_iff, hc]
      · next hc =>
          refine (parses_getContainer not_item_nil ih hc).congr fun v j => ?_
          simp only [item_iff, hc]
      · next hc =>
          refine (parses_getContainer not_member_nil (parses_getMember (Nat.le_refl fuel) ih)
            hc).congr fun v j => ?_
          simp only [item_iff, hc]
      · next hc =>
          refine (parses_parseError (fuel + 1) 112).congr fun v j => ?_
          simp only [item_iff, hc]
      · have hlt := c.toNat_lt
        have hc : c.toNat / 0x20 = 7 := by
          simp only [imp_false] at *
          omega
        refine (parses_getSimple (fuel + 1) _).congr fun v j => ?_
        simp only [item_iff, hc]

/-- **`from_cbor` accepts the bytes of one value**, and returns that value. -/
theorem fromCbor_eq_ok_iff {input : Bytes} {j : BasicJson} :
    fromCbor input = .ok j ↔ Item input j := by
  have hparses := parses_getFirst not_item_nil (parses_parseCborInternal input.length)
  constructor
  · intro h
    obtain ⟨⟨value, rest⟩, hrun, hend⟩ := Loops.bind_eq_ok h
    obtain ⟨u, hu, hitem⟩ := hparses.sound input value rest hrun
    cases rest with
    | nil =>
        cases hend
        rw [hu, List.append_nil]
        exact hitem
    | cons c rest => cases hend
  · intro h
    have hrun := hparses.complete input j [] h (Nat.lt_succ_self _)
    rw [List.append_nil] at hrun
    rw [fromCbor, hrun]
    rfl

/-- The reader ends by itself. -/
theorem fromCbor_ne_outOfFuel (input : Bytes) : fromCbor input ≠ .error .outOfFuel := by
  have henough := (parses_getFirst not_item_nil (parses_parseCborInternal input.length)).enough
    input (Nat.lt_succ_self _)
  intro h
  rw [fromCbor] at h
  cases hrun : getFirst (parseCborInternal input.length) input with
  | error e =>
      rw [hrun] at h henough
      exact henough (congrArg _ (Except.error.inj h))
  | ok r =>
      obtain ⟨value, rest⟩ := r
      rw [hrun] at h
      cases rest with
      | nil => cases h
      | cons c rest => cases h

end BasicJson

end GhostDag
