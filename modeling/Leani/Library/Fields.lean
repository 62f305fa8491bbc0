import Leani.Library.BigEndian

/-!
# Fields of a byte string

The bytes between two offsets, how they are found in a string put together from parts, and how a
string is put together from its fields. A table of numbers of one width is read back entry by
entry (`number_field_table`) and is its entries written out (`table_of_fields`).
-/

namespace Library.BigEndian

open List

def field (offset width : Nat) (payload : List UInt8) : List UInt8 :=
  (payload.drop offset).take width

variable {offset width : Nat} {payload : List UInt8}

theorem length_field
    (h : offset + width ≤ payload.length) : (field offset width payload).length = width := by
  rw [field, length_take, length_drop]; omega

variable {as bs : List UInt8}

theorem drop_append_of_le (h : as.length ≤ offset) :
    (as ++ bs).drop offset = bs.drop (offset - as.length) := by
  rw [drop_append, drop_eq_nil_of_le h, nil_append]

theorem field_append (h : as.length ≤ offset) :
    field offset width (as ++ bs) = field (offset - as.length) width bs := by
  rw [field, field, drop_append_of_le h]

theorem field_cons (off width : Nat) (byte : UInt8) (bs : List UInt8) :
    field (off + 1) width (byte :: bs) = field off width bs := rfl

theorem field_zero_append (h : as.length = width) : field 0 width (as ++ bs) = as := by
  rw [field, drop_zero, take_append_of_le_length h.ge, take_of_length_le h.le]

theorem field_field {start size : Nat} (pay : List UInt8) (h : start + width ≤ size) :
    field start width (field offset size pay) = field (offset + start) width pay := by
  rw [field, field, field, drop_take, take_take, drop_drop, Nat.min_eq_left (Nat.le_sub_of_add_le' h)]

theorem drop_eq_field_append (off width : Nat) (pay : List UInt8) :
    pay.drop off = field off width pay ++ pay.drop (off + width) := by
  rw [field, ← drop_drop, take_append_drop]

theorem bytes_number_field (h : offset + width ≤ payload.length) :
    bytes width (number (field offset width payload)) = field offset width payload := by
  have hbytes := bytes_number (field offset width payload)
  rwa [length_field h] at hbytes

theorem number_field_lt
    (h : offset + width ≤ payload.length) : number (field offset width payload) < 256 ^ width := by
  have hlt := number_lt (field offset width payload); rwa [length_field h] at hlt

variable {α : Type*}

def table (encode : α → List UInt8) (entries : List α) : List UInt8 := entries.flatMap encode

variable {encode : α → List UInt8} {entries : List α}

theorem length_table (h : ∀ a ∈ entries, (encode a).length = width) :
    (table encode entries).length = width * entries.length := by
  induction entries with
  | nil => rfl
  | cons a entries ih =>
    obtain ⟨ha, hrest⟩ := forall_mem_cons.1 h
    have htail := ih hrest
    rw [table] at htail
    rw [table, flatMap_cons, length_append, ha, htail, length_cons, Nat.mul_succ, Nat.add_comm]

theorem field_table (h : ∀ a ∈ entries, (encode a).length = width) {index : Nat} {a : α}
    (ha : entries[index]? = some a) :
    field (width * index) width (table encode entries) = encode a := by
  induction entries generalizing index with
  | nil => cases ha
  | cons b entries ih =>
    obtain ⟨hb, hrest⟩ := forall_mem_cons.1 h
    cases index with
    | zero =>
      rw [getElem?_cons_zero, Option.some.injEq] at ha
      subst ha; exact field_zero_append hb
    | succ index =>
      rw [getElem?_cons_succ] at ha
      have hle : (encode b).length ≤ width * (index + 1) := by
        rw [hb, Nat.mul_succ]; exact Nat.le_add_left _ _
      have hrest' := ih hrest ha
      rw [table] at hrest'
      rw [table, flatMap_cons, field_append hle, hb, Nat.mul_succ, Nat.add_sub_cancel, hrest']

theorem eq_table_of_fields (hlen : payload.length = width * entries.length)
    (h : ∀ index a, entries[index]? = some a → field (width * index) width payload = encode a) :
    payload = table encode entries := by
  induction entries generalizing payload with
  | nil => exact eq_nil_of_length_eq_zero hlen
  | cons a entries ih =>
    have hhead := h 0 a rfl
    have hsplit := drop_eq_field_append 0 width payload
    rw [drop_zero, Nat.zero_add] at hsplit
    rw [Nat.mul_zero] at hhead
    have htail : payload.drop width = table encode entries := by
      apply ih
      · rw [length_drop, hlen, length_cons, Nat.mul_succ, Nat.add_sub_cancel]
      · intro index b hb
        have hfield := h (index + 1) b hb
        rwa [field, Nat.mul_succ, Nat.add_comm, ← drop_drop, ← field] at hfield
    rw [hsplit, hhead, htail]; rfl

end Library.BigEndian
