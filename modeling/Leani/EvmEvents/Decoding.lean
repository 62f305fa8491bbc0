import Leani.EvmEvents.Values

/-!
# Decoding events

A log decodes exactly when it is the canonical encoding of arguments in the range of the event's
parameters, and the texts it decodes to tell the arguments apart.
-/

namespace Leani.EvmEvents

open Library Library.ContractAbi Std List Table AbiField AbiType

def AbiType.IsLeaf : AbiType → Prop
  | .word _ | .bytes | .string => True
  | .array _ _ | .tuple _ => False

variable {ty : AbiType} {text : String}

theorem leaf_eq_ok (hleaf : ty.IsLeaf) (hvalid : ty.Valid) {d : DynSolValue}
    (htype : HasType ty.decodeType d) :
    leaf ty d = .ok text ↔ ∃ v, ty.InRange v ∧ v.dyn = d ∧ v.text = text := by
  cases ty with
  | word kind =>
    obtain ⟨w, rfl, hw⟩ := hasType_word.1 htype
    rw [leaf, decodeWord_eq_ok hvalid hw]
    refine exists_congr fun v => and_congr_right fun hfits => and_congr_left fun _ => ?_
    rw [dyn_of_fits hfits, DynSolValue.word.injEq]
  | bytes =>
    cases d with
    | bytes bs =>
      rw [leaf, pure_eq_ok]
      constructor
      · intro h; exact ⟨.bytes bs, trivial, rfl, h⟩
      · rintro ⟨v, hv, hdyn, rfl⟩
        cases v with
        | bytes bs' =>
          cases hdyn; rfl
        | _ => exact hv.elim
    | _ => exact htype.elim
  | string =>
    cases d with
    | bytes bs =>
      rw [leaf, pure_eq_ok]
      constructor
      · intro h; exact ⟨.string bs, trivial, rfl, h⟩
      · rintro ⟨v, hv, hdyn, rfl⟩
        cases v with
        | string bs' =>
          cases hdyn; rfl
        | _ => exact hv.elim
    | _ => exact htype.elim
  | array element size => exact hleaf.elim
  | tuple components => exact hleaf.elim

variable {v : Value} {items : List DynSolValue}

theorem array_of_dyn (h : v.dyn = .array items) :
    ∃ values, v = .array values ∧ values.map Value.dyn = items := by
  cases v <;> cases h; exact ⟨_, rfl, (dyns_eq_map _).symm⟩

theorem fixedArray_of_dyn (h : v.dyn = .fixedArray items) :
    ∃ values, v = .fixedArray values ∧ values.map Value.dyn = items := by
  cases v <;> cases h; exact ⟨_, rfl, (dyns_eq_map _).symm⟩

theorem tuple_of_dyn (h : v.dyn = .tuple items) :
    ∃ values, v = .tuple values ∧ dyns values = items := by
  cases v <;> cases h; exact ⟨_, rfl, rfl⟩

theorem writeJson_leaf {ty : AbiType} (hleaf : ty.IsLeaf) (hvalid : ty.Valid) {d : DynSolValue}
    (htype : HasType ty.decodeType d) {text : List Char} :
    writeJson ty d = .ok text ↔ ∃ v, ty.InRange v ∧ v.dyn = d ∧ ty.json v = text := by
  have hjson : ∀ v, ty.json v = Json.quote v.text.toList := by
    cases ty <;> first | exact hleaf.elim | exact fun v => by rw [json]
  have hwrite : writeJson ty d = (do pure (Json.quote (← leaf ty d).toList)) := by
    cases ty <;> first | exact hleaf.elim | rfl
  simp only [hwrite, hjson, eq_ok, leaf_eq_ok hleaf hvalid htype]
  constructor
  · rintro ⟨_, ⟨v, hv, rfl, rfl⟩, rfl⟩; exact ⟨v, hv, rfl, rfl⟩
  · rintro ⟨v, hv, rfl, rfl⟩; exact ⟨_, ⟨v, hv, rfl, rfl⟩, rfl⟩

mutual

theorem writeJson_eq_ok : ∀ {ty : AbiType} {d : DynSolValue}, ty.Valid → HasType ty.decodeType d →
    ∀ {text : List Char}, writeJson ty d = .ok text ↔ ∃ v, ty.InRange v ∧ v.dyn = d ∧ ty.json v = text
  | .word kind, d, hvalid, htype, text => @writeJson_leaf (.word kind) trivial hvalid d htype text
  | .bytes, d, hvalid, htype, text => @writeJson_leaf .bytes trivial hvalid d htype text
  | .string, d, hvalid, htype, text => @writeJson_leaf .string trivial hvalid d htype text
  | .array element none, .array items, hvalid, htype, text => by
    rw [decodeType, HasType] at htype
    have hvalid : element.Valid := hvalid
    simp only [writeJson, eq_ok, mapM_eq_ok_iff fun d hd _ => writeJson_eq_ok hvalid (htype d hd)]
    constructor
    · rintro ⟨_, ⟨vals, hvals, rfl, rfl⟩, rfl⟩
      refine ⟨.array vals, hvals, ?_, ?_⟩
      · rw [Value.dyn, dyns_eq_map]
      · rw [json]
    · rintro ⟨v, hv, hdyn, rfl⟩
      obtain ⟨vals, rfl, rfl⟩ := array_of_dyn hdyn
      exact ⟨_, ⟨vals, hv, rfl, rfl⟩, by rw [json]⟩
  | .array element (some size), .fixedArray items, hvalid, htype, text => by
    rw [decodeType, HasType] at htype
    have hvalid : element.Valid := hvalid
    simp only [writeJson, eq_ok, mapM_eq_ok_iff fun d hd _ => writeJson_eq_ok hvalid (htype.2 d hd)]
    constructor
    · rintro ⟨_, ⟨vals, hvals, rfl, rfl⟩, rfl⟩
      refine ⟨.fixedArray vals, ⟨?_, hvals⟩, ?_, ?_⟩
      · rw [← htype.1, length_map]
      · rw [Value.dyn, dyns_eq_map]
      · rw [json]
    · rintro ⟨v, hv, hdyn, rfl⟩
      obtain ⟨vals, rfl, rfl⟩ := fixedArray_of_dyn hdyn
      exact ⟨_, ⟨vals, hv.2, rfl, rfl⟩, by rw [json]⟩
  | .tuple components, .tuple items, hvalid, htype, text => by
    rw [decodeType, HasType] at htype
    simp only [writeJson, eq_ok, writeMembers_eq_ok hvalid htype]
    constructor
    · rintro ⟨_, ⟨vals, hvals, rfl, rfl⟩, rfl⟩; exact ⟨.tuple vals, hvals, rfl, by rw [json]⟩
    · rintro ⟨v, hv, hdyn, rfl⟩
      obtain ⟨vals, rfl, rfl⟩ := tuple_of_dyn hdyn
      exact ⟨_, ⟨vals, hv, rfl, rfl⟩, by rw [json]⟩

theorem writeMembers_eq_ok : ∀ {comps : List (String × AbiType)} {items : List DynSolValue},
    AllValid comps → HaveTypes (decodeTypes comps) items → ∀ {texts : List (List Char)},
      writeMembers comps items = .ok texts ↔ ∃ vals, InRanges comps vals ∧ dyns vals = items ∧
          memberJsons comps vals = texts
  | [], [], _, _, texts => by
    rw [writeMembers, pure_eq_ok]
    · constructor
      · rintro rfl
        exact ⟨[], trivial, rfl, rfl⟩
      · rintro ⟨vals, hvals, -, rfl⟩
        cases vals with
        | nil => rfl
        | cons value vals => exact hvals.elim
    · nofun
  | (component, ty) :: comps, item :: items, hvalid, htype, texts => by
    simp only [writeMembers, bind_eq_ok, pure_eq_ok, writeJson_eq_ok hvalid.1 htype.1,
      writeMembers_eq_ok hvalid.2 htype.2]
    constructor
    · rintro ⟨_, ⟨v, hv, rfl, rfl⟩, _, ⟨vals, hvals, rfl, rfl⟩, rfl⟩
      exact ⟨v :: vals, ⟨hv, hvals⟩, rfl, rfl⟩
    · rintro ⟨vals, hvals, hdyns, rfl⟩
      cases vals with
      | nil => cases hdyns
      | cons v vals =>
        obtain ⟨rfl, rfl⟩ := cons.inj hdyns
        exact ⟨_, ⟨v, hvals.1, rfl, rfl⟩, _, ⟨vals, hvals.2, rfl, rfl⟩, rfl⟩

end

theorem render_leaf {ty : AbiType} (hleaf : ty.IsLeaf) (hvalid : ty.Valid) {name : String}
    {d : DynSolValue} (htype : HasType ty.decodeType d) {rows out : Table String String} :
    render name ty d rows = .ok out ↔
      ∃ v, ty.InRange v ∧ v.dyn = d ∧ insertRows rows (ty.entries name v) = out := by
  have hentries : ∀ v, ty.entries name v = [(name, v.text)] := by
    cases ty <;> first | exact hleaf.elim | exact fun v => by rw [entries]
  have hrender : render name ty d rows = (do pure (rows.insert name (← leaf ty d))) := by
    cases ty <;> first | exact hleaf.elim | rfl
  simp only [hrender, hentries, eq_ok, leaf_eq_ok hleaf hvalid htype]
  constructor
  · rintro ⟨_, ⟨v, hv, rfl, rfl⟩, rfl⟩; exact ⟨v, hv, rfl, rfl⟩
  · rintro ⟨v, hv, rfl, rfl⟩; exact ⟨_, ⟨v, hv, rfl, rfl⟩, rfl⟩

mutual

theorem render_eq_ok : ∀ {name : String} {ty : AbiType} {d : DynSolValue}, ty.Valid →
    HasType ty.decodeType d → ∀ {rows out : Table String String}, render name ty d rows = .ok out ↔
        ∃ v, ty.InRange v ∧ v.dyn = d ∧ insertRows rows (ty.entries name v) = out
  | name, .word kind, d, hvalid, htype, rows, out =>
    @render_leaf (.word kind) trivial hvalid name d htype rows out
  | name, .bytes, d, hvalid, htype, rows, out =>
    @render_leaf .bytes trivial hvalid name d htype rows out
  | name, .string, d, hvalid, htype, rows, out =>
    @render_leaf .string trivial hvalid name d htype rows out
  | name, .array element size, d, hvalid, htype, rows, out => by
    simp only [render, entries, bind_eq_ok, pure_eq_ok, writeJson_eq_ok hvalid htype]
    constructor
    · rintro ⟨_, ⟨v, hv, rfl, rfl⟩, rfl⟩
      exact ⟨v, hv, rfl, rfl⟩
    · rintro ⟨v, hv, rfl, rfl⟩
      exact ⟨_, ⟨v, hv, rfl, rfl⟩, rfl⟩
  | name, .tuple components, .tuple items, hvalid, htype, rows, out => by
    rw [decodeType, HasType] at htype
    rw [render, renderComponents_eq_ok hvalid htype]
    constructor
    · rintro ⟨vals, hvals, rfl, rfl⟩
      exact ⟨.tuple vals, hvals, rfl, by rw [entries]⟩
    · rintro ⟨v, hv, hdyn, rfl⟩
      obtain ⟨vals, rfl, rfl⟩ := tuple_of_dyn hdyn
      exact ⟨vals, hv, rfl, by rw [entries]⟩

theorem renderComponents_eq_ok : ∀ {name : String} {comps : List (String × AbiType)}
    {items : List DynSolValue}, AllValid comps → HaveTypes (decodeTypes comps) items →
      ∀ {rows out : Table String String}, renderComponents name comps items rows = .ok out ↔
        ∃ vals, InRanges comps vals ∧ dyns vals = items ∧
          insertRows rows (componentEntries name comps vals) = out
  | name, [], [], _, _, rows, out => by
    rw [renderComponents, pure_eq_ok]
    · constructor
      · rintro rfl
        exact ⟨[], trivial, rfl, rfl⟩
      · rintro ⟨vals, hvals, -, rfl⟩
        cases vals with
        | nil => rfl
        | cons value vals => exact hvals.elim
    · nofun
  | name, (component, ty) :: comps, item :: items, hvalid, htype, rows, out => by
    simp only [renderComponents, bind_eq_ok, render_eq_ok hvalid.1 htype.1,
      renderComponents_eq_ok hvalid.2 htype.2]
    constructor
    · rintro ⟨_, ⟨v, hv, rfl, rfl⟩, vals, hvals, rfl, rfl⟩
      refine ⟨v :: vals, ⟨hv, hvals⟩, rfl, ?_⟩
      rw [componentEntries, insertRows_append]
    · rintro ⟨vals, hvals, hdyns, rfl⟩
      cases vals with
      | nil => cases hdyns
      | cons v vals =>
        obtain ⟨rfl, rfl⟩ := cons.inj hdyns
        refine ⟨_, ⟨v, hvals.1, rfl, rfl⟩, vals, hvals.2, rfl, ?_⟩
        rw [componentEntries, insertRows_append]

end

def AbiType.topicKind : AbiType → AbiKind
  | .word kind => kind
  | _ => .fixedBytes 32

def AbiField.InRange (field : AbiField) (v : Value) : Prop :=
  if field.indexed then field.ty.topicKind.Fits v else field.ty.InRange v

def topicWords : List AbiField → List Value → List (List UInt8)
  | field :: fields, v :: args =>
    if field.indexed then v.word :: topicWords fields args else topicWords fields args
  | _, _ => []

def dataValues : List AbiField → List Value → List DynSolValue
  | field :: fields, v :: args =>
    if field.indexed then dataValues fields args else v.dyn :: dataValues fields args
  | _, _ => []

def AbiField.entries (field : AbiField) (v : Value) : List (String × String) :=
  if field.indexed then [(field.name, v.text)] else field.ty.entries field.name v

def argumentEntries : List AbiField → List Value → List (String × String)
  | field :: fields, v :: args => field.entries v ++ argumentEntries fields args
  | _, _ => []

def dataTypes (fields : List AbiField) : List DynSolType :=
  (fields.filter fun field => !field.indexed).map fun field => field.ty.decodeType

theorem topicText_eq_ok (hvalid : ty.Valid) (topic : Filtering.Topic) : topicText ty topic.toList =
 .ok text ↔ ∃ v : Value, ty.topicKind.Fits v ∧ v.word = topic.toList ∧ v.text = text := by
  have hlen : topic.toList.length = 32 := Vector.length_toList
  have hkind : ty.topicKind.Valid := by
    cases ty with
    | word kind => exact hvalid
    | _ => exact ⟨by decide, le_rfl⟩
  rw [← decodeWord_eq_ok hkind hlen]
  have htext : ∀ text, decodeWord (.fixedBytes 32) topic.toList = .ok text ↔
      hexText topic.toList = text := by
    intro text
    simp only [decodeWord, eq_ok, all_eq_true, decide_eq_true_eq]
    rw [drop_eq_nil_of_le (by omega), take_of_length_le (by omega)]
    constructor
    · rintro ⟨_, _, h⟩; exact h
    · intro h; exact ⟨(), fun _ hmem => absurd hmem not_mem_nil, h⟩
  cases ty with
  | word kind => rfl
  | _ => exact pure_eq_ok.trans (htext text).symm

variable {fields : List AbiField} {topics : List Filtering.Topic} {out : Table String String}

theorem decodeFields_eq_ok (hvalid : ∀ field ∈ fields, field.ty.Valid) {body : List DynSolValue}
    (htopics : topics.length = (fields.filter indexed).length)
    (hbody : HaveTypes (dataTypes fields) body) {rows : Table String String} :
    decodeFields fields topics body rows = .ok out ↔
      ∃ args, List.Forall₂ AbiField.InRange fields args ∧
        topicWords fields args = topics.map Vector.toList ∧ dataValues fields args = body ∧
          insertRows rows (argumentEntries fields args) = out := by
  induction fields generalizing topics body rows with
  | nil =>
    rw [decodeFields, pure_eq_ok]
    have hnil := eq_nil_of_length_eq_zero htopics
    have hnone : body = [] := by
      cases body with
      | nil => rfl
      | cons value body => exact hbody.elim
    rw [hnil, hnone]
    constructor
    · rintro rfl; exact ⟨[], .nil, rfl, rfl, rfl⟩
    · rintro ⟨args, hargs, -, -, rfl⟩
      rw [forall₂_nil_left_iff] at hargs; rw [hargs]; rfl
  | cons field fields ih =>
    obtain ⟨hfld, hvalid⟩ := forall_mem_cons.1 hvalid
    rw [decodeFields.eq_def]
    simp only
    cases hidx : field.indexed with
    | true =>
      rw [if_pos rfl]
      rw [filter_cons_of_pos hidx, length_cons] at htopics
      have htypes : dataTypes (field :: fields) = dataTypes fields := by
        rw [dataTypes, filter_cons_of_neg (by simp [hidx]), dataTypes]
      rw [htypes] at hbody
      cases topics with
      | nil => cases htopics
      | cons topic topics =>
        simp only [bind_eq_ok, topicText_eq_ok hfld, ih hvalid (Nat.succ.inj htopics) hbody]
        constructor
        · rintro ⟨_, ⟨v, hv, hword, rfl⟩, args, hargs, hwords, rfl, rfl⟩
          refine ⟨v :: args, .cons ?_ hargs, ?_, ?_, ?_⟩
          · rwa [AbiField.InRange, if_pos hidx]
          · rw [topicWords, if_pos hidx, hword, hwords, map_cons]
          · rw [dataValues, if_pos hidx]
          · rw [argumentEntries, AbiField.entries, if_pos hidx, singleton_append, insertRows_cons]
        · rintro ⟨args, hargs, hwords, rfl, rfl⟩
          obtain ⟨v, args, hv, hrest, rfl⟩ := forall₂_cons_left_iff.1 hargs
          rw [AbiField.InRange, if_pos hidx] at hv
          rw [topicWords, if_pos hidx, map_cons, cons.injEq] at hwords
          refine ⟨_, ⟨v, hv, hwords.1, rfl⟩, args, hrest, hwords.2, ?_, ?_⟩
          · rw [dataValues, if_pos hidx]
          · rw [argumentEntries, AbiField.entries, if_pos hidx, singleton_append, insertRows_cons]
    | false =>
      have hneg : ¬ field.indexed = true := by simp [hidx]
      rw [if_neg Bool.false_ne_true]
      rw [filter_cons_of_neg hneg] at htopics
      have htypes : dataTypes (field :: fields) = field.ty.decodeType :: dataTypes fields := by
        rw [dataTypes, filter_cons_of_pos (by simp [hidx]), dataTypes, map_cons]
      rw [htypes] at hbody
      cases body with
      | nil => exact hbody.elim
      | cons value body =>
        rw [HaveTypes] at hbody
        simp only [bind_eq_ok, render_eq_ok hfld hbody.1, ih hvalid htopics hbody.2]
        constructor
        · rintro ⟨_, ⟨v, hv, rfl, rfl⟩, args, hargs, hwords, rfl, rfl⟩
          refine ⟨v :: args, .cons ?_ hargs, ?_, ?_, ?_⟩
          · rwa [AbiField.InRange, if_neg hneg]
          · rw [topicWords, if_neg hneg, hwords]
          · rw [dataValues, if_neg hneg]
          · rw [argumentEntries, AbiField.entries, if_neg hneg, insertRows_append]
        · rintro ⟨args, hargs, hwords, hvals, rfl⟩
          obtain ⟨v, args, hv, hrest, rfl⟩ := forall₂_cons_left_iff.1 hargs
          rw [AbiField.InRange, if_neg hneg] at hv
          rw [topicWords, if_neg hneg] at hwords
          rw [dataValues, if_neg hneg, cons.injEq] at hvals
          refine ⟨_, ⟨v, hv, hvals.1, rfl⟩, args, hrest, hwords, hvals.2, ?_⟩
          rw [argumentEntries, AbiField.entries, if_neg hneg, insertRows_append]

variable {args : List Value}

theorem length_topicWords (h : List.Forall₂ AbiField.InRange fields args) :
    (topicWords fields args).length = (fields.filter indexed).length := by
  induction h with
  | nil => rfl
  | @cons field v fields args _ _ ih =>
    rw [topicWords]
    by_cases hidx : field.indexed = true
    · rw [if_pos hidx, length_cons, ih, filter_cons_of_pos hidx, length_cons]
    · rw [if_neg hidx, ih, filter_cons_of_neg hidx]

theorem haveTypes_dataValues (hvalid : ∀ field ∈ fields, field.ty.Valid)
 (h : List.Forall₂ AbiField.InRange fields args) :
    HaveTypes (dataTypes fields) (dataValues fields args) := by
  induction h with
  | nil => trivial
  | @cons field v fields args hv _ ih =>
    obtain ⟨hfld, hvalid⟩ := forall_mem_cons.1 hvalid
    rw [dataValues, dataTypes]
    by_cases hidx : field.indexed = true
    · rw [if_pos hidx, filter_cons_of_neg (by simp [hidx])]; exact ih hvalid
    · rw [AbiField.InRange, if_neg hidx] at hv
      rw [if_neg hidx, filter_cons_of_pos (by simp [hidx]), map_cons, HaveTypes]
      exact ⟨hasType_dyn hfld hv, ih hvalid⟩

structure EncodesLog (abi : EventAbi) (args : List Value) (topics : List Filtering.Topic)
    (data : List UInt8) : Prop where
  inRange : List.Forall₂ AbiField.InRange abi.fields args
  topics : topics ≠ [] ∧ (topics.drop 1).map Vector.toList = topicWords abi.fields args
  data : data = encode abi.body (.tuple (dataValues abi.fields args))

/-- What the library's coder does with an event's data: it decodes to values of the type, which it
encodes in the standard way, and it decodes what encodes arguments. -/
structure Alloy.Codes (alloy : Alloy) (abi : EventAbi) : Prop where
  decoded : ∀ {data : List UInt8} {value : DynSolValue}, alloy.abiDecodeSequence abi.body data =
    .ok value → HasType abi.body value ∧ alloy.abiEncodeSequence value = some (encode abi.body value)
  inverse : ∀ {args : List Value}, List.Forall₂ AbiField.InRange abi.fields args →
    alloy.abiDecodeSequence abi.body (encode abi.body (.tuple (dataValues abi.fields args))) =
      .ok (.tuple (dataValues abi.fields args))

variable {alloy : Alloy} {event : Event} {abi : EventAbi}

theorem encodesLog_of_decode (hparsed : parse alloy event = .ok abi)
    (hvalid : ∀ field ∈ abi.fields, field.ty.Valid) (hcodes : alloy.Codes abi)
    {data : List UInt8} (h : abi.decode alloy topics data = .ok out) : ∃ args,
    EncodesLog abi args topics data ∧ insertRows ∅ (argumentEntries abi.fields args) = out := by
  have hbody := (parse_body hparsed).1
  simp only [EventAbi.decode, eq_ok] at h
  obtain ⟨-, hcount, -, -, value, hdec, -, hencode, hflds⟩ := h
  obtain ⟨htype, hstandard⟩ := hcodes.decoded hdec
  rw [hencode, Option.some.injEq] at hstandard
  rw [hbody] at htype
  cases value with
  | tuple body =>
    have hdropped : (topics.drop 1).length = (abi.fields.filter indexed).length := by
      rw [length_drop, hcount, Nat.add_sub_cancel]
    obtain ⟨args, hargs, hwords, hvals, rfl⟩ :=
      (decodeFields_eq_ok hvalid hdropped htype).1 hflds
    refine ⟨args, ⟨hargs, ⟨?_, hwords.symm⟩, ?_⟩, rfl⟩
    · rintro rfl; cases hcount
    · rw [hvals, ← hstandard]
  | _ => exact htype.elim

theorem decode_eq_ok (hmeas : alloy.Measures)
    (hparsed : parse alloy event = .ok abi) (hvalid : ∀ field ∈ abi.fields, field.ty.Valid)
    (hcodes : alloy.Codes abi) {data : Slice} : abi.decode alloy topics data.bytes = .ok out ↔ ∃ args,
    EncodesLog abi args topics data.bytes ∧ insertRows ∅ (argumentEntries abi.fields args) = out := by
  have hbody := (parse_body hparsed).1
  refine ⟨encodesLog_of_decode hparsed hvalid hcodes, ?_⟩
  simp only [EventAbi.decode, eq_ok]
  rintro ⟨args, hlog, rfl⟩
  have htypes := haveTypes_dataValues hvalid hlog.inRange
  have htype : HasType abi.body (.tuple (dataValues abi.fields args)) := by
    rw [hbody]; exact htypes
  have hcnt : (topics.drop 1).length = (abi.fields.filter indexed).length := by
    rw [← length_topicWords hlog.inRange, ← hlog.topics.2, length_map]
  have hdec := hcodes.inverse hlog.inRange
  rw [← hlog.data] at hdec
  refine ⟨(), ?_, (), ?_, _, hdec, (), ?_, ?_⟩
  · have hpos := length_pos_iff.2 hlog.topics.1; rw [length_drop] at hcnt; omega
  · rw [encodedLen_body hmeas hparsed, hlog.data]; exact encodes_encode htype
  · rw [(hcodes.decoded hdec).2, ← hlog.data]
  · exact (decodeFields_eq_ok hvalid hcnt htypes).2 ⟨args, hlog.inRange, hlog.topics.2.symm, rfl, rfl⟩

end Leani.EvmEvents
