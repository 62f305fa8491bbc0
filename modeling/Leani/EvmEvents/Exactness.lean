import Leani.EvmEvents.Decoding

/-!
# Exact event decoding

The texts of an event's arguments stand under distinct keys, and tell the arguments apart: what
decodes to one map is one log, up to the bytes of strings that are not UTF-8.
-/

namespace Leani.EvmEvents

open Library Library.ContractAbi Std Table AbiField AbiType Json Prod Value

mutual

def DynSolType.Valid : DynSolType → Prop
  | .uint size | .int size => 0 < size ∧ size ≤ 256 ∧ size % 8 = 0
  | .fixedBytes size => 0 < size ∧ size ≤ 32
  | .array element | .fixedArray element _ => element.Valid
  | .tuple types => TypesValid types
  | .bool | .address | .function | .bytes | .string => True

def TypesValid : List DynSolType → Prop
  | [] => True
  | ty :: types => ty.Valid ∧ TypesValid types

end

def Alloy.Resolves (alloy : Alloy) : Prop :=
  ∀ {param : Param} {ty : DynSolType}, alloy.resolve param = .ok ty → ty.Valid

variable {alloy : Alloy}

mutual

theorem abiType_valid : ∀ {ty : DynSolType} {comps : List Param} {t : AbiType},
    ty.Valid → abiType alloy ty comps = .ok t → t.Valid
  | .address, _, _, _, h | .bool, _, _, _, h | .bytes, _, _, _, h | .string, _, _, _, h => by
    cases h
    trivial
  | .uint _, _, _, hvalid, h | .int _, _, _, hvalid, h => by
    simp only [abiType, bind_eq_ok, pure_eq_ok] at h
    obtain ⟨_, hwidth, rfl⟩ := h
    rw [width_eq_ok hwidth]; exact hvalid
  | .fixedBytes _, _, _, hvalid, h => by
    simp only [abiType, eq_ok] at h
    obtain ⟨-, -, rfl⟩ := h; exact hvalid
  | .function, _, _, _, h => by cases h
  | .array element, _, _, hvalid, h => by
    simp only [abiType, eq_ok] at h
    obtain ⟨t, ht, rfl⟩ := h
    have hinner := abiType_valid (show element.Valid from hvalid) ht; exact hinner
  | .fixedArray element size, _, _, hvalid, h => by
    simp only [abiType, eq_ok] at h
    obtain ⟨-, -, t, ht, rfl⟩ := h
    have hinner := abiType_valid (show element.Valid from hvalid) ht; exact hinner
  | .tuple types, comps, _, hvalid, h => by
    simp only [abiType, eq_ok] at h
    obtain ⟨-, -, _, hflds, -, -, rfl⟩ := h; exact abiTypes_valid hvalid hflds

theorem abiTypes_valid : ∀ {types : List DynSolType} {comps : List Param}
    {fields : List (String × AbiType)},
      TypesValid types → abiTypes alloy types comps = .ok fields → AllValid fields
  | [], _, _, _, h | _ :: _, [], _, _, h => by
    simp only [abiTypes, pure_eq_ok] at h
    rw [← h]
    trivial
  | ty :: types, component :: comps, _, hvalid, h => by
    simp only [abiTypes, bind_eq_ok, pure_eq_ok] at h
    obtain ⟨_, -, _, ht, fields, hflds, rfl⟩ := h
    exact ⟨abiType_valid hvalid.1 ht, abiTypes_valid hvalid.2 hflds⟩

end

def Simple (name : String) : Prop := '.' ∉ name.toList

mutual

def AbiType.Named : AbiType → Prop
  | .word _ | .bytes | .string => True
  | .array element _ => element.Named
  | .tuple components => (components.map Prod.fst).Nodup ∧ AllNamed components

def AllNamed : List (String × AbiType) → Prop
  | [] => True
  | (component, ty) :: components => Simple component ∧ ty.Named ∧ AllNamed components

end

theorem simple_of_fieldName {name ty text : String} (h : fieldName name ty = .ok text) :
    text = name ∧ Simple text := by
  simp only [fieldName, eq_ok] at h
  obtain ⟨-, _, -, hvalid, rfl⟩ := h
  refine ⟨rfl, fun hdot => ?_⟩
  unfold validIdentifier at hvalid
  cases hchars : name.toList with
  | nil =>
    rw [hchars] at hvalid; cases hvalid
  | cons first rest =>
    rw [hchars] at hvalid hdot
    simp only [Bool.and_eq_true, Bool.or_eq_true, decide_eq_true_eq, List.all_eq_true] at hvalid
    rcases List.mem_cons.1 hdot with rfl | hrest
    · rcases hvalid.1 with h | h
      · exact absurd h (by decide)
      · exact absurd h (by decide)
    · rcases hvalid.2 _ hrest with h | h
      · exact absurd h (by decide)
      · exact absurd h (by decide)

mutual

theorem abiType_named : ∀ {ty : DynSolType} {comps : List Param} {t : AbiType},
    abiType alloy ty comps = .ok t → t.Named
  | .address, _, _, h | .bool, _, _, h | .bytes, _, _, h | .string, _, _, h => by
    cases h
    trivial
  | .uint _, _, _, h | .int _, _, _, h => by
    simp only [abiType, bind_eq_ok, pure_eq_ok] at h
    obtain ⟨_, -, rfl⟩ := h
    trivial
  | .fixedBytes _, _, _, h => by
    simp only [abiType, eq_ok] at h
    obtain ⟨-, -, rfl⟩ := h; trivial
  | .function, _, _, h => by cases h
  | .array element, _, _, h => by
    simp only [abiType, eq_ok] at h
    obtain ⟨t, ht, rfl⟩ := h
    have hinner := abiType_named ht; exact hinner
  | .fixedArray element size, _, _, h => by
    simp only [abiType, eq_ok] at h
    obtain ⟨-, -, t, ht, rfl⟩ := h
    have hinner := abiType_named ht; exact hinner
  | .tuple types, comps, _, h => by
    simp only [abiType, eq_ok] at h
    obtain ⟨-, -, _, hflds, -, hnodup, rfl⟩ := h; exact ⟨hnodup, abiTypes_named hflds⟩

theorem abiTypes_named : ∀ {types : List DynSolType} {comps : List Param}
    {fields : List (String × AbiType)}, abiTypes alloy types comps = .ok fields → AllNamed fields
  | [], _, _, h | _ :: _, [], _, h => by
    simp only [abiTypes, pure_eq_ok] at h
    rw [← h]
    trivial
  | ty :: types, component :: comps, _, h => by
    simp only [abiTypes, bind_eq_ok, pure_eq_ok] at h
    obtain ⟨_, hname, _, ht, fields, hflds, rfl⟩ := h
    exact ⟨(simple_of_fieldName hname).2, abiType_named ht, abiTypes_named hflds⟩

end

structure FieldsAccepted (fields : List AbiField) : Prop where
  valid : ∀ field ∈ fields, field.ty.Valid
  named : ∀ field ∈ fields, Simple field.name ∧ field.ty.Named
  nodup : (fields.map AbiField.name).Nodup

variable {event : Event} {abi : EventAbi}

theorem fields_accepted (hresolves : alloy.Resolves)
    (h : parse alloy event = .ok abi) : FieldsAccepted abi.fields := by
  simp only [parse, eq_ok] at h
  obtain ⟨-, -, -, -, fields, hflds, -, hnodup, -, -, -, -, rfl⟩ := h
  have hparts : ∀ field ∈ fields, ∃ input, parseInput alloy input = .ok field := by
    intro field hfld
    obtain ⟨input, -, hinput⟩ := (mem_of_mapM_eq_ok hflds field).1 hfld; exact ⟨input, hinput⟩
  refine ⟨fun field hfld => ?_, fun field hfld => ?_, hnodup⟩
  · obtain ⟨input, hinput⟩ := hparts field hfld
    simp only [parseInput, eq_ok] at hinput
    obtain ⟨-, -, resolved, hresol, name, -, ty, hty, rfl⟩ := hinput
    cases hres : alloy.resolve input.toParam with
    | error error =>
      rw [hres] at hresol; cases hresol
    | ok result =>
      rw [hres] at hresol; cases hresol; exact abiType_valid (hresolves hres) hty
  · obtain ⟨input, hinput⟩ := hparts field hfld
    simp only [parseInput, eq_ok] at hinput
    obtain ⟨-, -, resolved, -, name, hname, ty, hty, rfl⟩ := hinput
    exact ⟨(simple_of_fieldName hname).2, abiType_named hty⟩

def Under (name key : String) : Prop :=
  key = name ∨ ∃ rest : String, key = name ++ "." ++ rest

variable {key : String}

theorem eq_of_under {first a b : String} (ha : Simple a) (hb : Simple b)
    (hkey : Under (first ++ a) key) (hkey' : Under (first ++ b) key) : a = b := by
  have hsplit : ∀ {name : String}, Under (first ++ name) key → ∃ rest, key.toList =
      first.toList ++ (name.toList ++ rest) ∧ (rest = [] ∨ ∃ others, rest = '.' :: others) := by
    rintro name (rfl | ⟨rest, rfl⟩)
    · exact ⟨[], by simp, .inl rfl⟩
    · exact ⟨'.' :: rest.toList, by simp, .inr ⟨_, rfl⟩⟩
  obtain ⟨rest, hrest, hstart⟩ := hsplit hkey
  obtain ⟨rest', hrest', hstart'⟩ := hsplit hkey'
  rw [hrest] at hrest'
  have hchars := List.append_cancel_left hrest'
  clear hrest hrest' hkey hkey'
  -- A name ends where the key does or at the first dot.
  have hends : ∀ {as bs rest rest' : List Char}, '.' ∉ as → '.' ∉ bs →
      (rest = [] ∨ ∃ others, rest = '.' :: others) → (rest' = [] ∨ ∃ others, rest' = '.' :: others) →
        as ++ rest = bs ++ rest' → as = bs := by
    intro as
    induction as with
    | nil =>
      intro bs rest rest' _ hbs hrest _ h
      cases bs with
      | nil => rfl
      | cons b bs =>
        rw [List.nil_append] at h
        rcases hrest with rfl | ⟨others, rfl⟩
        · cases h
        · rw [List.cons_append, List.cons.injEq] at h; exact absurd (h.1 ▸ List.mem_cons_self) hbs
    | cons a as ih =>
      intro bs rest rest' has hbs hrest hrest' h
      cases bs with
      | nil =>
        rw [List.nil_append] at h
        rcases hrest' with rfl | ⟨others, rfl⟩
        · cases h
        · rw [List.cons_append, List.cons.injEq] at h; exact absurd (h.1 ▸ List.mem_cons_self) has
      | cons b bs =>
        rw [List.cons_append, List.cons_append, List.cons.injEq] at h
        rw [List.mem_cons, not_or] at has hbs; rw [h.1, ih has.2 hbs.2 hrest hrest' h.2]
  exact String.toList_injective (hends ha hb hstart hstart' hchars)

theorem Under.trans {name comp : String} (h : Under (name ++ "." ++ comp) key) : Under name key := by
  rcases h with rfl | ⟨rest, rfl⟩
  · exact .inr ⟨comp, rfl⟩
  · exact .inr ⟨comp ++ "." ++ rest, by simp only [String.append_assoc]⟩

mutual

theorem under_of_mem_keys : ∀ {name : String} {ty : AbiType} {key : String},
    key ∈ ty.keys name → Under name key
  | name, .word _, key, h | name, .bytes, key, h | name, .string, key, h
  | name, .array _ _, key, h => by
    rw [AbiType.keys, List.mem_singleton] at h
    · exact .inl h
    all_goals nofun
  | name, .tuple components, key, h => by
    rw [AbiType.keys] at h
    obtain ⟨_, -, hunder⟩ := under_of_mem_componentKeys h
    exact hunder.trans

theorem under_of_mem_componentKeys : ∀ {name : String} {comps : List (String × AbiType)}
    {key : String}, key ∈ componentKeys name comps →
      ∃ component ∈ comps.map fst, Under (name ++ "." ++ component) key
  | _, [], _, h => by cases h
  | name, (component, ty) :: comps, key, h => by
    rw [componentKeys, List.mem_append] at h
    rcases h with h | h
    · exact ⟨component, List.mem_cons_self, under_of_mem_keys h⟩
    · obtain ⟨other, hother, hunder⟩ := under_of_mem_componentKeys h
      exact ⟨other, List.mem_cons_of_mem _ hother, hunder⟩

end

mutual

theorem nodup_keys : ∀ {name : String} {ty : AbiType}, ty.Named → (ty.keys name).Nodup
  | name, .word _, _ | name, .bytes, _ | name, .string, _ | name, .array _ _, _ => by
    rw [AbiType.keys]
    · exact List.nodup_singleton name
    all_goals nofun
  | name, .tuple components, h => by
    rw [AbiType.keys]
    exact nodup_componentKeys h.1 h.2

theorem nodup_componentKeys : ∀ {name : String} {comps : List (String × AbiType)},
    (comps.map fst).Nodup → AllNamed comps → (componentKeys name comps).Nodup
  | _, [], _, _ => List.nodup_nil
  | name, (component, ty) :: comps, hnodup, h => by
    rw [List.map_cons, List.nodup_cons] at hnodup
    rw [componentKeys, List.nodup_append]
    refine ⟨nodup_keys h.2.1, nodup_componentKeys hnodup.2 h.2.2, ?_⟩
    rintro key hkey _ hother rfl
    obtain ⟨other, hmem, hunder⟩ := under_of_mem_componentKeys hother
    have hsimple := simple_of_allNamed h.2.2 other hmem
    exact hnodup.1 (eq_of_under h.1 hsimple (under_of_mem_keys hkey) hunder ▸ hmem)

theorem simple_of_allNamed : ∀ {comps : List (String × AbiType)}, AllNamed comps →
    ∀ component ∈ comps.map fst, Simple component
  | [], _ => nofun
  | (component, ty) :: comps, h => by
    rw [List.map_cons, List.forall_mem_cons]
    exact ⟨h.1, simple_of_allNamed h.2.2⟩

end

def fieldKeys (fields : List AbiField) : List String := fields.flatMap AbiField.keys

mutual

theorem keys_entries : ∀ {name : String} {ty : AbiType} {v : Value}, ty.InRange v →
    (ty.entries name v).map Prod.fst = ty.keys name
  | name, .word _, v, _ | name, .bytes, v, _ | name, .string, v, _ | name, .array _ _, v, _ => by
    rw [AbiType.entries, AbiType.keys]
    · rfl
    all_goals nofun
  | name, .tuple components, .tuple items, h => by
    rw [AbiType.entries, AbiType.keys]
    exact keys_componentEntries h

theorem keys_componentEntries : ∀ {name : String} {comps : List (String × AbiType)}
    {items : List Value}, InRanges comps items →
      (componentEntries name comps items).map fst = componentKeys name comps
  | _, [], [], _ => rfl
  | name, (component, ty) :: comps, item :: items, h => by
    rw [componentEntries, componentKeys, List.map_append, keys_entries h.1, keys_componentEntries h.2]

end

variable {field : AbiField} {v : Value}

theorem keys_fieldEntries (h : field.InRange v) : (field.entries v).map Prod.fst = field.keys := by
  rw [AbiField.entries, AbiField.keys]
  by_cases hidx : field.indexed = true
  · rw [if_pos hidx, if_pos hidx]; rfl
  · rw [AbiField.InRange, if_neg hidx] at h; rw [if_neg hidx, if_neg hidx]; exact keys_entries h

variable {fields : List AbiField} {args : List Value}

theorem keys_argumentEntries (h : List.Forall₂ AbiField.InRange fields args) :
    (argumentEntries fields args).map fst = fieldKeys fields := by
  induction h with
  | nil => rfl
  | cons hv _ ih => rw [argumentEntries, List.map_append, keys_fieldEntries hv, ih, fieldKeys,
      fieldKeys, List.flatMap_cons]

theorem under_of_mem_fieldKeys (h : key ∈ field.keys) : Under field.name key := by
  rw [AbiField.keys] at h
  split at h
  · exact .inl (List.mem_singleton.1 h)
  · exact under_of_mem_keys h

theorem FieldsAccepted.nodup_keys (h : FieldsAccepted fields) : (fieldKeys fields).Nodup := by
  obtain ⟨-, hnamed, hnodup⟩ := h
  induction fields with
  | nil => exact List.nodup_nil
  | cons field fields ih =>
    obtain ⟨⟨hsimple, hfield⟩, hnamed⟩ := List.forall_mem_cons.1 hnamed
    rw [List.map_cons, List.nodup_cons] at hnodup
    rw [fieldKeys, List.flatMap_cons, List.nodup_append]
    refine ⟨?_, ih hnamed hnodup.2, ?_⟩
    · rw [AbiField.keys]
      split
      · exact List.nodup_singleton _
      · exact EvmEvents.nodup_keys hfield
    · rintro key hkey _ hother rfl
      obtain ⟨other, hmem, hkey'⟩ := List.mem_flatMap.1 hother
      have hunder : Under ("" ++ field.name) key := by
        rw [String.empty_append]; exact under_of_mem_fieldKeys hkey
      have hunder' : Under ("" ++ other.name) key := by
        rw [String.empty_append]; exact under_of_mem_fieldKeys hkey'
      have hname := eq_of_under hsimple (hnamed other hmem).1 hunder hunder'
      exact hnodup.1 (List.mem_map.2 ⟨other, hmem, hname.symm⟩)

mutual

def Value.shown : Value → Value
  | .string bs => .string (Utf8.encode (Utf8.lossy bs))
  | .array items => .array (showns items)
  | .fixedArray items => .fixedArray (showns items)
  | .tuple items => .tuple (showns items)
  | .address bs => .address bs
  | .uint n => .uint n
  | .int z => .int z
  | .bool b => .bool b
  | .fixedBytes bs => .fixedBytes bs
  | .bytes bs => .bytes bs

def showns : List Value → List Value
  | [] => []
  | item :: items => item.shown :: showns items

end

theorem showns_eq_map (items : List Value) : showns items = items.map shown := by
  induction items with
  | nil => rfl
  | cons item items ih => rw [showns, ih, List.map_cons]

theorem hexText_injective {as bs : List UInt8} (h : hexText as = hexText bs) : as = bs := by
  have hchars := String.ofList_injective h
  exact Hex.encode_injective (List.cons.inj (List.cons.inj hchars).2).2

variable {w : Value}

theorem eq_of_text {kind : AbiKind} (hv : kind.Fits v) (hw : kind.Fits w)
    (h : v.text = w.text) : v = w := by
  cases kind <;> cases v <;> first | exact hv.elim | skip
  all_goals cases w <;> first | exact hw.elim | skip
  case address.address.address => exact congrArg _ (hexText_injective h)
  case uint.uint.uint => exact congrArg _ (Nat.repr_injective h)
  case int.int.int => exact congrArg _ (Int.repr_injective h)
  case bool.bool.bool a b => cases a <;> cases b <;> first | rfl | exact absurd h (by decide)
  case fixedBytes.fixedBytes.fixedBytes => exact congrArg _ (hexText_injective h)

variable {ty : AbiType}

theorem shown_of_text (hleaf : ty.IsLeaf) (hv : ty.InRange v)
    (hw : ty.InRange w) (h : v.text = w.text) : v.shown = w.shown := by
  cases ty with
  | word kind => rw [eq_of_text hv hw h]
  | bytes =>
    cases v <;> first | exact hv.elim | skip
    cases w <;> first | exact hw.elim | skip; rw [shown, shown, hexText_injective h]
  | string =>
    cases v <;> first | exact hv.elim | skip
    cases w <;> first | exact hw.elim | skip; rw [shown, shown, String.ofList_injective h]
  | array element size => exact hleaf.elim
  | tuple components => exact hleaf.elim

theorem json_ne_close (hv : ty.InRange v) (rest rest' : List Char) :
    ty.json v ++ rest ≠ ']' :: rest' := by
  intro h
  cases ty with
  | word kind =>
    rw [json] at h; exact absurd (List.cons.inj h).1 (by decide)
  | bytes =>
    rw [json] at h; exact absurd (List.cons.inj h).1 (by decide)
  | string =>
    rw [json] at h; exact absurd (List.cons.inj h).1 (by decide)
  | array element size =>
    cases size <;> cases v <;> first | exact hv.elim | skip
    all_goals
      rw [json] at h; exact absurd (List.cons.inj h).1 (by decide)
  | tuple components =>
    cases v <;> first | exact hv.elim | skip
    rw [json] at h; exact absurd (List.cons.inj h).1 (by decide)

theorem json_leaf_append_inj {ty : AbiType} (hleaf : ty.IsLeaf) {v w : Value}
    {rest rest' : List Char} (hv : ty.InRange v) (hw : ty.InRange w)
    (h : ty.json v ++ rest = ty.json w ++ rest') : v.shown = w.shown ∧ rest = rest' := by
  have hjson : ∀ v, ty.json v = quote v.text.toList := by
    cases ty <;> first | exact hleaf.elim | exact fun v => by rw [json]
  rw [hjson, hjson] at h
  obtain ⟨htext, hrest⟩ := quote_append_inj h
  exact ⟨shown_of_text hleaf hv hw (String.toList_injective htext), hrest⟩

theorem array_append_inj {element : AbiType} {as bs : List Value} {rest rest' : List Char}
    (has : ∀ item ∈ as, element.InRange item) (hbs : ∀ item ∈ bs, element.InRange item)
    (hitems : Json.Items element.json shown as bs)
    (h : '[' :: ([','].intercalate (as.map element.json) ++ [']']) ++ rest =
      '[' :: ([','].intercalate (bs.map element.json) ++ [']']) ++ rest') :
    showns as = showns bs ∧ rest = rest' := by
  rw [List.cons_append, List.cons_append, List.append_assoc, List.append_assoc] at h
  rw [showns_eq_map, showns_eq_map]
  exact intercalate_append_inj (by decide) hitems (fun a ha => json_ne_close (has a ha))
    (fun b hb => json_ne_close (hbs b hb)) (List.cons.inj h).2

mutual

theorem json_append_inj : ∀ {ty : AbiType} {v w : Value} {rest rest' : List Char}, ty.InRange v →
    ty.InRange w → ty.json v ++ rest = ty.json w ++ rest' → v.shown = w.shown ∧ rest = rest'
  | .word kind, v, w, rest, rest', hv, hw, h =>
    @json_leaf_append_inj (.word kind) trivial v w rest rest' hv hw h
  | .bytes, v, w, rest, rest', hv, hw, h =>
    @json_leaf_append_inj .bytes trivial v w rest rest' hv hw h
  | .string, v, w, rest, rest', hv, hw, h =>
    @json_leaf_append_inj .string trivial v w rest rest' hv hw h
  | .array element none, .array as, .array bs, rest, rest', hv, hw, h => by
    rw [AbiType.InRange] at hv hw
    rw [json, json] at h
    obtain ⟨hitems, hrest⟩ := array_append_inj hv hw
      (fun a ha b hb _ _ heq => json_append_inj (hv a ha) (hw b hb) heq) h
    exact ⟨by rw [shown, shown, hitems], hrest⟩
  | .array element (some size), .fixedArray as, .fixedArray bs, rest, rest', hv, hw, h => by
    rw [AbiType.InRange] at hv hw
    rw [json, json] at h
    obtain ⟨hitems, hrest⟩ := array_append_inj hv.2 hw.2
      (fun a ha b hb _ _ heq => json_append_inj (hv.2 a ha) (hw.2 b hb) heq) h
    exact ⟨by rw [shown, shown, hitems], hrest⟩
  | .tuple components, .tuple as, .tuple bs, rest, rest', hv, hw, h => by
    rw [AbiType.InRange] at hv hw
    rw [json, json, List.cons_append, List.cons_append, List.append_assoc, List.append_assoc] at h
    have hmembers : ((memberJsons components as).flatMap fun text => ',' :: text) ++
        ('\x7d' :: rest) = ((memberJsons components bs).flatMap fun text => ',' :: text) ++
          ('\x7d' :: rest') := by
      have hinner := (List.cons.inj h).2
      cases components with
      | nil =>
        rw [memberJsons, memberJsons] at hinner ⊢
        · exact hinner
        all_goals nofun
      | cons component components =>
        cases as with
        | nil => exact hv.elim
        | cons a as =>
          cases bs with
          | nil => exact hw.elim
          | cons b bs =>
            rw [← cons_intercalate (by rw [memberJsons]; exact List.cons_ne_nil _ _),
              ← cons_intercalate (by rw [memberJsons]; exact List.cons_ne_nil _ _)]
            exact congrArg _ hinner
    obtain ⟨hitems, hrest⟩ := members_append_inj hv hw hmembers
    exact ⟨by rw [shown, shown, hitems], (List.cons.inj hrest).2⟩

theorem members_append_inj : ∀ {comps : List (String × AbiType)} {as bs : List Value}
    {rest rest' : List Char}, InRanges comps as → InRanges comps bs →
      ((memberJsons comps as).flatMap fun text => ',' :: text) ++ rest =
        ((memberJsons comps bs).flatMap fun text => ',' :: text) ++ rest' →
          showns as = showns bs ∧ rest = rest'
  | [], [], [], _, _, _, _, h => ⟨rfl, h⟩
  | (component, ty) :: comps, a :: as, b :: bs, rest, rest', ha, hb, h => by
    rw [memberJsons, memberJsons, List.flatMap_cons, List.flatMap_cons] at h
    simp only [List.cons_append, List.append_assoc, List.cons.injEq, true_and] at h
    have hvalue := (List.cons.inj (quote_append_inj h).2).2
    obtain ⟨hshown, htail⟩ := json_append_inj ha.1 hb.1 hvalue
    obtain ⟨hshowns, hrest⟩ := members_append_inj ha.2 hb.2 htail
    exact ⟨by rw [showns, showns, hshown, hshowns], hrest⟩

end

theorem entries_leaf_injective {ty : AbiType} (hleaf : ty.IsLeaf) {name : String} {v w : Value}
    (hv : ty.InRange v) (hw : ty.InRange w) (h : ty.entries name v = ty.entries name w) :
    v.shown = w.shown := by
  have hentries : ∀ v, ty.entries name v = [(name, v.text)] := by
    cases ty <;> first | exact hleaf.elim | exact fun v => by rw [AbiType.entries]
  rw [hentries, hentries] at h; exact shown_of_text hleaf hv hw (mk.inj (List.cons.inj h).1).2

mutual

theorem entries_injective : ∀ {name : String} {ty : AbiType} {v w : Value},
    ty.InRange v → ty.InRange w → ty.entries name v = ty.entries name w → v.shown = w.shown
  | name, .word kind, v, w, hv, hw, h => @entries_leaf_injective (.word kind) trivial name v w hv hw h
  | name, .bytes, v, w, hv, hw, h => @entries_leaf_injective .bytes trivial name v w hv hw h
  | name, .string, v, w, hv, hw, h => @entries_leaf_injective .string trivial name v w hv hw h
  | name, .array element size, v, w, hv, hw, h => by
    rw [AbiType.entries, AbiType.entries] at h
    have hjson := String.ofList_injective (Prod.mk.inj (List.cons.inj h).1).2
    exact (@json_append_inj _ v w [] [] hv hw (by rw [hjson])).1
  | name, .tuple components, .tuple as, .tuple bs, hv, hw, h => by
    rw [AbiType.entries, AbiType.entries] at h
    rw [Value.shown, Value.shown, componentEntries_injective hv hw h]

theorem componentEntries_injective : ∀ {name : String} {comps : List (String × AbiType)}
    {as bs : List Value}, InRanges comps as → InRanges comps bs →
      componentEntries name comps as = componentEntries name comps bs → showns as = showns bs
  | _, [], [], [], _, _, _ => rfl
  | name, (component, ty) :: comps, a :: as, b :: bs, ha, hb, h => by
    rw [componentEntries, componentEntries] at h
    have hlen : (ty.entries (name ++ "." ++ component) a).length =
        (ty.entries (name ++ "." ++ component) b).length := by
      rw [← List.length_map (f := fst), keys_entries ha.1, ← keys_entries hb.1, List.length_map]
    obtain ⟨hfst, hrest⟩ := List.append_inj h hlen
    rw [showns, showns, entries_injective ha.1 hb.1 hfst, componentEntries_injective ha.2 hb.2 hrest]

end

theorem shown_of_fieldEntries (hv : field.InRange v)
    (hw : field.InRange w) (h : field.entries v = field.entries w) : v.shown = w.shown := by
  rw [AbiField.entries, AbiField.entries] at h
  rw [AbiField.InRange] at hv hw
  by_cases hidx : field.indexed = true
  · rw [if_pos hidx] at hv hw
    rw [if_pos hidx, if_pos hidx] at h; rw [eq_of_text hv hw (mk.inj (List.cons.inj h).1).2]
  · rw [if_neg hidx] at hv hw; rw [if_neg hidx, if_neg hidx] at h; exact entries_injective hv hw h

theorem shown_of_argumentEntries {args' : List Value} (h : List.Forall₂ AbiField.InRange fields args)
    (h' : List.Forall₂ AbiField.InRange fields args') (heq : argumentEntries fields args =
    argumentEntries fields args') : args.map shown = args'.map shown := by
  induction h generalizing args' with
  | nil =>
    rw [List.forall₂_nil_left_iff] at h'; rw [h']
  | @cons field v fields args hv _ ih =>
    obtain ⟨w, args', hw, hargs', rfl⟩ := List.forall₂_cons_left_iff.1 h'
    rw [argumentEntries, argumentEntries] at heq
    have hlen : (field.entries v).length = (field.entries w).length := by
      rw [← List.length_map (f := fst), keys_fieldEntries hv, ← keys_fieldEntries hw, List.length_map]
    obtain ⟨hfst, hrest⟩ := List.append_inj heq hlen
    rw [List.map_cons, List.map_cons, shown_of_fieldEntries hv hw hfst, ih hargs' hrest]

theorem mem_insertRows_argumentEntries (h : List.Forall₂ AbiField.InRange abi.fields args) :
    key ∈ (insertRows ∅ (argumentEntries abi.fields args) : Table String String) ↔
      key ∈ abi.valueKeys := by
  rw [mem_insertRows_empty, keys_argumentEntries h, EventAbi.valueKeys,
    ExtTreeSet.mem_ofList, List.contains_iff_mem, fieldKeys]

structure DecodesExactly (alloy : Alloy) (abi : EventAbi) : Prop where
  complete : ∀ {args : List Value} {topics : List Filtering.Topic}
    {data : Slice}, EncodesLog abi args topics data.bytes → ∃ values : Table String String,
    abi.decode alloy topics data.bytes = .ok values ∧ (∀ key : String, key ∈ values ↔
    key ∈ abi.valueKeys) ∧ ∀ entry ∈ argumentEntries abi.fields args, values[entry.1]? = some entry.2
  sound : ∀ {topics : List Filtering.Topic} {data : Slice} {values : Table String String},
    abi.decode alloy topics data.bytes = .ok values → ∃ args, EncodesLog abi args topics data.bytes
  /-- Logs that decode to one map hold the same arguments, up to strings that are not UTF-8; without
  such strings their topics and data are the same. -/
  apart : ∀ {args args' : List Value} {topics topics' : List Filtering.Topic} {data data' : Slice}
    {values : Table String String}, EncodesLog abi args topics data.bytes →
      EncodesLog abi args' topics' data'.bytes → abi.decode alloy topics data.bytes = .ok values →
        abi.decode alloy topics' data'.bytes = .ok values →
          args.map Value.shown = args'.map Value.shown ∧
            (args.map Value.shown = args → args'.map Value.shown = args' →
              topics.drop 1 = topics'.drop 1 ∧ data.bytes = data'.bytes)

theorem decodes_exactly {alloy : Alloy} (hmeasures : alloy.Measures) (hresolves : alloy.Resolves)
 (hparsed : parse alloy event = .ok abi) (hcodes : alloy.Codes abi) : DecodesExactly alloy abi := by
  have haccepted := fields_accepted hresolves hparsed
  have hdecode : ∀ {topics : List Filtering.Topic} {data : Slice} {out : Table String String},
      abi.decode alloy topics data.bytes = .ok out ↔ ∃ args, EncodesLog abi args topics data.bytes ∧
        insertRows ∅ (argumentEntries abi.fields args) = out :=
    decode_eq_ok hmeasures hparsed haccepted.valid hcodes
  have hnodup : ∀ {args : List Value}, List.Forall₂ AbiField.InRange abi.fields args →
      ((argumentEntries abi.fields args).map fst).Nodup := by
    intro args hargs; rw [keys_argumentEntries hargs]; exact haccepted.nodup_keys
  have hapart : ∀ {args args' : List Value}, List.Forall₂ AbiField.InRange abi.fields args →
      List.Forall₂ AbiField.InRange abi.fields args' →
        (insertRows ∅ (argumentEntries abi.fields args) : Table String String) =
          insertRows ∅ (argumentEntries abi.fields args') → args.map shown = args'.map shown := by
    intro args args' hargs hargs' heq
    refine shown_of_argumentEntries hargs hargs' (insertRows_injective ?_ (hnodup hargs) heq)
    rw [keys_argumentEntries hargs, keys_argumentEntries hargs']
  refine ⟨?_, ?_, ?_⟩
  · intro args topics data hlog
    refine ⟨_, hdecode.2 ⟨args, hlog, rfl⟩, fun _ => ?_, fun _ hentry => ?_⟩
    · exact mem_insertRows_argumentEntries hlog.inRange
    · exact get?_insertRows_of_mem (hnodup hlog.inRange) hentry
  · intro topics data values h
    obtain ⟨args, hlog, -⟩ := hdecode.1 h; exact ⟨args, hlog⟩
  · intro args args' topics _ data _ values hlog hlog' h h'
    rw [hdecode.2 ⟨args, hlog, rfl⟩, Except.ok.injEq] at h
    rw [hdecode.2 ⟨args', hlog', rfl⟩, Except.ok.injEq, ← h] at h'
    have hshown := hapart hlog.inRange hlog'.inRange h'.symm
    refine ⟨hshown, fun hargs hargs' => ?_⟩
    have heq : args = args' := by rw [← hargs, hshown, hargs']
    subst heq
    refine ⟨?_, hlog.data.trans hlog'.data.symm⟩
    have hwords := hlog.topics.2.trans hlog'.topics.2.symm
    exact List.map_injective_iff.2 (fun _ _ => Vector.toList_inj.1) hwords

theorem resolves_numberAlloy : numberAlloy.Resolves := by
  intro _ _ h
  simp only [numberAlloy] at h
  split at h
  · cases h; trivial
  · split at h
    · cases h; exact ⟨by decide, by decide, by decide⟩
    · cases h

theorem encode_number (w : List UInt8) : encode depositAbi.body (.tuple [.word w]) = w := by
  simp [depositAbi, encode, encodeParts, assemble, heads, tails, DynSolType.shape,
    Shape.isDynamic, headLength, Part.headLength]

theorem codes_numberAlloy : numberAlloy.Codes depositAbi where
  decoded := by
    intro data _ h
    have hbody : depositAbi.body = .tuple [.uint 256] := rfl
    simp only [hbody, numberAlloy] at h
    split at h
    · rename_i hdata; cases h; exact ⟨⟨hdata, trivial⟩, congrArg some (encode_number data).symm⟩
    · cases h
  inverse := by
    intro _ h
    obtain ⟨owner, _, -, hargs, rfl⟩ := List.forall₂_cons_left_iff.1 h
    obtain ⟨amount, _, hamount, hrest, rfl⟩ := List.forall₂_cons_left_iff.1 hargs
    rw [List.forall₂_nil_left_iff.1 hrest]
    cases amount with
    | uint n =>
      have hlen := length_word n
      have hvals : dataValues depositAbi.fields [owner, .uint n] = [.word (word n)] := rfl
      have hbody : depositAbi.body = .tuple [.uint 256] := rfl
      rw [hvals, encode_number, hbody]; simp only [numberAlloy, hlen, if_true]
    | _ => exact hamount.elim

theorem decodes_exactly_deposit : DecodesExactly numberAlloy depositAbi :=
  decodes_exactly measures_numberAlloy resolves_numberAlloy parse_deposit codes_numberAlloy

end Leani.EvmEvents
