import Leani.Rpc.AnchoredChain

/-!
# Requests to an anchored source

What one turn of the proof keeps, any number of requests keep, in any order and whatever the endpoints
answer: the map stays grounded, and the windows that its steps proved descend without a repeat
(`Served.serve`). A chunk that opens is a run of the anchor's ancestors (`opened_chunk`), since its blocks
link down from a proven hash.
-/

namespace Leani.Rpc.History

open Library Std List Option DecodedBlock History

variable {η : Type} [DecidableEq η] {hashSlow : Header η → η} {anchor : Nat} {anchorHash : η}
  {chain : AnchorChain hashSlow anchor anchorHash}

def Below (above below : Nat × Nat) : Prop := below.1 < above.1 ∧ below.2 ≤ above.1

structure Served (chain : AnchorChain hashSlow anchor anchorHash) (windows : List (Nat × Nat))
    (proven : Table Nat η) : Prop where
  grounded : Grounded chain proven
  descend : windows.Pairwise Below
  reached : ∀ (low : Nat) (hash : η), lowest proven = some (low, hash) → ∀ w ∈ windows, low ≤ w.1

omit [DecidableEq η] in
theorem Served.start (chain : AnchorChain hashSlow anchor anchorHash) :
    Served chain [] (startingHashes anchor anchorHash) where
  grounded := .start chain
  descend := .nil
  reached _ _ _ := nofun

variable {proven : Table Nat η} {endpoints : Endpoints η} {number : Nat}

theorem Served.turn (hinj : Function.Injective hashSlow) {done wins : List (Nat × Nat)}
    {more : Table Nat η} (h : Served chain done proven)
    (hturn : provenTurn hashSlow endpoints proven number = .proved wins more) :
    Served chain (done ++ wins) more := by
  obtain ⟨low, hash, hlowest, hlt, hwalk, hgrounded⟩ := h.grounded.turn hinj hturn
  have hstep := proofStep_pos
  have hlower : max (low - proofStep) number < low := by omega
  have hlow := h.reached low hash hlowest
  refine ⟨hgrounded, pairwise_append.2 ⟨h.descend, ?_, fun above ha below hb => ?_⟩,
    fun _ _ hleast w hw => ?_⟩
  · refine (List.Pairwise.and_mem.1 hwalk.apart).imp fun {above below} hapart => ?_
    obtain ⟨ha, hb, hlt⟩ := hapart
    have hin := hwalk.within below hb; exact ⟨by omega, Nat.le_of_lt hlt⟩
  · have hin := hwalk.within below hb
    have := hlow above ha; exact ⟨by have := hin.2.2.2 hlower; omega, by omega⟩
  · have hleast := (lowest_spec hleast).2 _ (hwalk.bottom_mem (Nat.le_of_lt hlower))
    rcases mem_append.1 hw with hw | hw
    · have := hlow w hw; omega
    · have := hwalk.within w hw; omega

theorem Served.provenHash (hinj : Function.Injective hashSlow) {num : Nat} {proofs : List (Endpoints η)} :
    ∀ {done : List (Nat × Nat)} {prv : Table Nat η}, Served chain done prv →
      Served chain (done ++ (provenHash hashSlow proofs prv num).windows)
        (provenHash hashSlow proofs prv num).proven := by
  induction proofs with
  | nil =>
    intro done prv h; rw [History.provenHash, append_nil]; exact h
  | cons endpoints rest ih =>
    intro done prv h
    rw [History.provenHash]
    split
    · rwa [append_nil]
    · rwa [append_nil]
    · rwa [append_nil]
    · rename_i wins more hturn
      have hmore := ih (h.turn hinj hturn); rwa [append_assoc] at hmore

theorem Served.provenRange (hinj : Function.Injective hashSlow) {done : List (Nat × Nat)}
    {prv : Table Nat η} (h : Served chain done prv) (req : Request η) :
    Served chain (done ++ (provenRange hashSlow anchor prv req).windows)
      (provenRange hashSlow anchor prv req).proven := by
  rw [History.provenRange]
  split_ifs
  · rwa [append_nil]
  · exact h.provenHash hinj

theorem Served.serve (hinj : Function.Injective hashSlow) (requests : List (Request η)) :
    ∀ {done : List (Nat × Nat)} {prv : Table Nat η}, Served chain done prv →
      Served chain (done ++ (serve hashSlow anchor requests prv).1)
        (serve hashSlow anchor requests prv).2 := by
  induction requests with
  | nil =>
    intro done prv h; rw [History.serve, append_nil]; exact h
  | cons request rest ih =>
    intro done prv h
    rw [History.serve]
    have hmore := ih (h.provenRange hinj request); rwa [append_assoc] at hmore

omit [DecidableEq η] in
theorem Grounded.lowest_le (h : Grounded chain proven) {low : Nat} {hash : η}
    (hlowest : lowest proven = some (low, hash)) : low ≤ anchor :=
  (h.ancestors low hash (lowest_spec hlowest).1).1

variable {proofs : List (Endpoints η)}

theorem Grounded.provenHash_ends (hinj : Function.Injective hashSlow)
 : ∀ {prv : Table Nat η} {low steps : Nat} {hash : η},
      Grounded chain prv → lowest prv = some (low, hash) → low ≤ number + steps * proofStep →
      steps < proofs.length → (provenHash hashSlow proofs prv number).result ≠ none := by
  induction proofs with
  | nil => exact fun _ _ _ hlen => absurd hlen (Nat.not_lt_zero _)
  | cons endpoints rest ih =>
    intro prv low steps hash h hlowest hlow hlen
    rw [provenHash]
    split
    · nofun
    · nofun
    · nofun
    · rename_i wins more hturn
      obtain ⟨_, _, hlowest', _, hwalk, hmore⟩ := h.turn hinj hturn
      rw [hlowest] at hlowest'
      cases hlowest'
      obtain ⟨_, hnext⟩ := hmore.exists_lowest
      have hle := (lowest_spec hnext).2 _ (hwalk.bottom_mem (by omega))
      cases steps with
      | zero => omega
      | succ left =>
        rw [Nat.succ_mul] at hlow; exact ih hmore hnext (by omega) (Nat.lt_of_succ_lt_succ hlen)

theorem Grounded.provenHash_valid (hinj : Function.Injective hashSlow) (hle : number ≤ anchor)
    (hend : (number + 1) % chunkBlocks = 0 ∨ number = anchor) : ∀ {prv : Table Nat η},
    Grounded chain prv → ∀ res, (provenHash hashSlow proofs prv number).result =
    some res → res = .ok (chain.hash number) ∨ ∃ e, res = .error (.rpc e) := by
  induction proofs with
  | nil => exact fun _ _ h => nomatch h
  | cons endpoints rest ih =>
    intro prv h res hres
    rw [provenHash] at hres
    split at hres
    · rename_i hash hturn
      cases hres; exact .inl (congrArg _ (h.ancestors number hash (provenTurn_eq_found hturn)).2)
    · rename_i e hturn; exact absurd hturn (h.not_refused hle hend e)
    · rename_i wins e hturn
      cases hres
      obtain ⟨e', rfl⟩ := provenTurn_eq_failed hturn; exact .inr ⟨e', rfl⟩
    · rename_i wins more hturn
      obtain ⟨_, _, _, _, _, hmore⟩ := h.turn hinj hturn; exact ih hmore res hres

def AnchorChain.frame (chain : AnchorChain hashSlow anchor anchorHash) (n : Nat) : Frame η :=
  ⟨n, chain.hash n, chain.block n⟩

theorem headers_of_links (hinj : Function.Injective hashSlow) {top : Nat} (htop : top ≤ anchor) :
    ∀ {blks : List (DecodedBlock η)}, blks.length ≤ top + 1 → checkLinks blks = .ok () →
      (∀ block ∈ blks, hashSlow block.header = block.hash) →
      blks.getLast?.map hash = some (chain.hash top) →
      blks.map header = (range' (top + 1 - blks.length) blks.length).map chain.block
  | [], _, _, _, hlast => nomatch hlast
  | [block], _, _, hhash, hlast => by
    have hlast : block.hash = chain.hash top := some.inj hlast
    have hblock := hinj ((hhash block mem_cons_self).trans hlast); simp [hblock]
  | below :: block :: rest, hlen, hlinks, hhash, hlast => by
    obtain ⟨_, hlink, hlinks⟩ := bind_eq_ok.1 hlinks
    rw [ensure_eq_ok] at hlink
    rw [getLast?_cons_cons] at hlast
    rw [length_cons] at hlen
    have hrest := headers_of_links hinj htop (by omega) hlinks (forall_mem_cons.1 hhash).2 hlast
    rw [length_cons] at hlen
    set low := top - (rest.length + 1) with hlow
    have hstart : top + 1 - (block :: rest).length = low + 1 := by
      rw [length_cons]; omega
    have hstart' : top + 1 - (below :: block :: rest).length = low := by
      rw [length_cons, length_cons]; omega
    rw [hstart] at hrest
    have hblock : block.header = chain.block (low + 1) := by
      rw [map_cons, length_cons, range'_succ, map_cons] at hrest; exact (cons.inj hrest).1
    have hbelow : below.header = chain.block low := by
      refine hinj ?_
      rw [hhash below mem_cons_self, ← hlink, hblock, chain.link low (by omega)]
    rw [hstart', length_cons, range'_succ, map_cons (l := block :: rest), hbelow, hrest, map_cons]

theorem frame_eq_ok {block : DecodedBlock η} {out : Frame η} :
    frame hashSlow block = .ok out ↔ (hashSlow block.header = block.hash ∧ block.framed = true) ∧
      ⟨block.header.number, block.hash, block.header⟩ = out := by
  simp only [frame, eq_ok, exists_const]

theorem fromRpc_eq_ok {α : Type} {x : Except RpcError α} {a : α} : fromRpc x = .ok a ↔ x = .ok a := by
  cases x with
  | error e => exact ⟨nofun, nofun⟩
  | ok b => exact ⟨fun h => congrArg _ (Except.ok.inj h), fun h => congrArg _ (Except.ok.inj h)⟩

omit [DecidableEq η] in
theorem eq_map_of_mapM_eq_ok {α β : Type} {f : α → Except SourceError β} {g : α → β} (hf : ∀ a b,
    f a = .ok b → g a = b) {as : List α} : ∀ {bs : List β}, as.mapM f = .ok bs → as.map g = bs := by
  induction as with
  | nil =>
    intro bs h; cases h; rfl
  | cons a as ih =>
    intro bs h
    obtain ⟨b, _, hb, hbs, rfl⟩ := mapM_cons_eq_ok.1 h; rw [map_cons, hf a b hb, ih hbs]

omit [DecidableEq η] in
theorem length_decodeAll {served : List (Option (DecodedBlock η))} {blks : List (DecodedBlock η)}
    (h : decodeAll served = .ok blks) : blks.length = served.length :=
  (mapM_eq_ok_iff_getElem?.1 h).1

variable {frames : List (Frame η)}

theorem fetchRange_spec (hinj : Function.Injective hashSlow)
    {expPar : Option η} {first top : Nat} (hfirst : first ≤ top) (htop : top ≤ anchor)
 (h : fetchRange hashSlow endpoints expPar first top = .ok frames)
    (hlast : frames.getLast?.map Frame.hash = some (chain.hash top)) :
    frames = (range' first (top + 1 - first)).map chain.frame := by
  simp only [fetchRange, eq_ok, fromRpc_eq_ok] at h
  obtain ⟨_, hserv, blocks, hblocks, _, hlinks, _, -, _, -, hfrs⟩ := h
  have hframe (block : DecodedBlock η) (hblock : block ∈ blocks) :
      hashSlow block.header = block.hash := by
    obtain ⟨_, -, hout⟩ := answer_of_mapM_eq_ok hfrs block hblock; exact (frame_eq_ok.1 hout).1.1
  have hmap := (eq_map_of_mapM_eq_ok (fun _ _ hout => (frame_eq_ok.1 hout).2) hfrs).symm
  have hlen : blocks.length = top + 1 - first := by
    rw [length_decodeAll hblocks, endpoints.length_eq _ _ _ hserv]
  have hlastBlock : blocks.getLast?.map hash = some (chain.hash top) := by
    rw [hmap, List.getLast?_map, Option.map_map] at hlast; exact hlast
  have hhdrs := headers_of_links hinj htop (by omega) hlinks hframe hlastBlock
  have hfirst' : top + 1 - blocks.length = first := by omega
  rw [hfirst', hlen] at hhdrs
  calc frames = (blocks.map header).map fun header => ⟨header.number, hashSlow header, header⟩ := by
        rw [hmap, List.map_map]
        refine List.map_congr_left fun block hblock => ?_
        rw [Function.comp_apply, hframe block hblock]
    _ = (List.range' first (top + 1 - first)).map chain.frame := by
        rw [hhdrs, List.map_map]
        refine List.map_congr_left fun n hn => ?_
        rw [mem_range'_1] at hn; rw [Function.comp_apply, chain.number_eq n (by omega)]; rfl

theorem chunkEnd_spec (n : Nat) : n ≤ chunkEnd n ∧ (chunkEnd n + 1) % chunkBlocks = 0 := by
  refine ⟨Nat.left_le_or, ?_⟩
  have hbits : ∀ low : Fin 64, low.val ||| 63 = 63 := by decide
  have hmod : chunkEnd n % 2 ^ 6 = 63 := by
    rw [chunkEnd, Nat.or_mod_two_pow]; exact hbits ⟨n % 2 ^ 6, Nat.mod_lt _ (by decide)⟩
  unfold chunkBlocks; omega

omit [DecidableEq η] in
theorem topOf_spec {chunk : Chunk η} (h : chunk.range.last ≤ anchor) :
    chunk.range.last ≤ topOf anchor chunk ∧ topOf anchor chunk ≤ anchor ∧
      ((topOf anchor chunk + 1) % chunkBlocks = 0 ∨ topOf anchor chunk = anchor) := by
  obtain ⟨hle, hend⟩ := chunkEnd_spec chunk.range.last
  rcases Nat.le_total (chunkEnd chunk.range.last) anchor with hbelow | habove
  · rw [topOf, Nat.min_eq_left hbelow]; exact ⟨hle, hbelow, .inl hend⟩
  · rw [topOf, Nat.min_eq_right habove]; exact ⟨h, le_rfl, .inr rfl⟩

theorem opened_chunk (hinj : Function.Injective hashSlow)
    (h : Grounded chain proven) {req : Request η}
    (hopen : (provenRange hashSlow anchor proven req).result = some (.ok frames)) :
    frames = (range' req.chunk.range.start
      (req.chunk.range.last + 1 - req.chunk.range.start)).map chain.frame := by
  rw [provenRange] at hopen
  split_ifs at hopen with hbeyond
  · cases hopen
  · obtain ⟨_, htop, hend⟩ := topOf_spec (Nat.le_of_not_lt hbeyond)
    obtain ⟨res, hres, hfrs⟩ := map_eq_some_iff.1 hopen
    obtain ⟨_, rfl, hfrs⟩ := bind_eq_ok.1 hfrs
    rcases h.provenHash_valid hinj htop hend _ hres with htrust | ⟨_, he⟩
    · cases htrust
      simp only [framesBelow, eq_ok] at hfrs
      obtain ⟨_, htrust, _, hfetch, _, htip, rfl⟩ := hfrs
      cases htrust
      have hstart := req.chunk.range.start_le_last
      rw [fetchRange_spec hinj (by omega) htop hfetch htip, ← map_take,
        take_range'_of_length_ge (by omega)]
    · cases he

def blocksBelow (chain : AnchorChain hashSlow anchor anchorHash) : Nat → Nat → List (Option (DecodedBlock η))
  | _, 0 => []
  | top, count + 1 => some ⟨chain.block top, chain.hash top, true⟩ :: blocksBelow chain (top - 1) count

omit [DecidableEq η] in
theorem length_blocksBelow (chain : AnchorChain hashSlow anchor anchorHash) (count : Nat) :
    ∀ top, (blocksBelow chain top count).length = count := by
  induction count with
  | zero => exact fun _ => rfl
  | succ count ih => exact fun top => congrArg Nat.succ (ih (top - 1))

def servingFrom (chain : AnchorChain hashSlow anchor anchorHash) (least : Nat) : Endpoints η where
  blocks first last := if first < least then .error (.request "timeout")
    else .ok (blocksBelow chain last (last + 1 - first)).reverse
  length_eq first last list h := by
    split_ifs at h
    cases h
    rw [List.length_reverse, length_blocksBelow]

theorem walkHeaders_blocksBelow (chain : AnchorChain hashSlow anchor anchorHash) (lower grid head : Nat)
    (count : Nat) : ∀ {top : Nat} (prv : Table Nat η), top ≤ anchor → count ≤ top + 1 →
      ∃ out, walkHeaders hashSlow lower grid head (blocksBelow chain top count) (chain.hash top) prv =
        .ok out := by
  induction count with
  | zero => exact fun _ _ _ => ⟨_, rfl⟩
  | succ count ih =>
    intro top prv _ _
    rw [blocksBelow, walkHeaders, if_neg]
    · cases top with
      | zero =>
        have hzero : count = 0 := by omega
        subst hzero; exact ⟨_, rfl⟩
      | succ t =>
        rw [chain.link t (by omega)]; exact ih _ (by omega) (by omega)
    · rintro (hbad | hbad)
      · exact hbad rfl
      · exact hbad rfl

theorem proveDown_servingFrom (hinj : Function.Injective hashSlow)
    (chain : AnchorChain hashSlow anchor anchorHash) (lower grid head win least top : Nat)
    (prv : Table Nat η) (htop : top ≤ anchor) (hlower : lower ≤ top)
    (hleast : least ≤ max (top - (win - 1)) lower) :
    ∃ prv', proveDown hashSlow lower grid win (servingFrom chain least) head top (chain.hash top)
      prv = if max (top - (win - 1)) lower = lower then ([(lower, top)], .ok prv') else
          let out := proveDown hashSlow lower grid win (servingFrom chain least) head
            (max (top - (win - 1)) lower - 1) (chain.hash (max (top - (win - 1)) lower - 1)) prv'
          ((max (top - (win - 1)) lower, top) :: out.1, out.2) := by
  set low := max (top - (win - 1)) lower with hlow
  have hlen := length_blocksBelow chain (top + 1 - low) top
  obtain ⟨⟨exp, prv'⟩, hwalk⟩ := walkHeaders_blocksBelow chain lower grid head
    (top + 1 - low) prv htop (by omega)
  have hblks : (servingFrom chain least).blocks low top =
      .ok (blocksBelow chain top (top + 1 - low)).reverse := if_neg (Nat.not_lt.2 hleast)
  have hexp := (walkHeaders_spec hinj htop (by omega) rfl hwalk).1
  rw [hlen] at hexp
  refine ⟨prv', ?_⟩
  rw [proveDown]
  rw [← hlow, hblks]
  dsimp only
  rw [reverse_reverse, hwalk]
  dsimp only
  by_cases hend : low = lower
  · rw [dif_pos hend, if_pos hend, hend]
  · have hexit : exp = chain.hash (low - 1) :=
      (hexp (by omega)).trans (congrArg chain.hash (by omega))
    rw [dif_neg hend, if_neg hend, hexit]

def namingHash (header : Header (List Nat)) : List Nat :=
  header.number :: header.parentHash.length :: (header.parentHash ++ header.rest.map UInt8.toNat)

theorem namingHash_injective : Function.Injective namingHash := by
  rintro ⟨_, _, _⟩ ⟨_, _, _⟩ h
  simp only [namingHash, cons.injEq] at h
  obtain ⟨rfl, hlen, happend⟩ := h
  obtain ⟨rfl, hrest⟩ := append_inj happend hlen
  have hbytes : Function.Injective UInt8.toNat := fun _ _ => UInt8.toNat_inj.1
  rw [map_injective_iff.2 hbytes hrest]

def plainBlock : Nat → Header (List Nat)
  | 0 => ⟨0, [], []⟩
  | n + 1 => ⟨n + 1, namingHash (plainBlock n), []⟩

def plainChain (anchor : Nat) : AnchorChain namingHash anchor (namingHash (plainBlock anchor)) where
  block := plainBlock
  number_eq n _ := by cases n <;> rfl
  link _ _ := rfl
  anchor_eq := rfl

omit [DecidableEq η] in
theorem lowest_startingHashes (chain : AnchorChain hashSlow anchor anchorHash) :
    lowest (startingHashes anchor anchorHash) = some (anchor, chain.hash anchor) := by
  obtain ⟨_, hlow⟩ := (Grounded.start chain).exists_lowest
  have hget := (lowest_spec hlow).1
  rw [get?_startingHashes] at hget
  split_ifs at hget with hkey
  rw [hlow, hkey]

theorem provenTurn_below {low : Nat} {hash : η} (hmiss : proven[number]? = none)
    (hlowest : lowest proven = some (low, hash)) (hle : number ≤ low) {lower : Nat} (hlower : lower =
    max (low - proofStep) number) {wins : List (Nat × Nat)} {res : Except RpcError (Table Nat η)} :
    proveDown hashSlow lower chunkBlocks proofWindow endpoints low low hash ∅ =
    (wins, res) → provenTurn hashSlow endpoints proven number = match res with
        | .error e => .failed wins (.rpc e)
        | .ok more => .proved wins (extend proven more) := by
  intro hdown
  subst hlower
  unfold provenTurn
  rw [hmiss]
  rw [hlowest]
  dsimp only
  rw [if_neg (Nat.not_lt.2 hle), hdown]
  cases res <;> rfl

/-- A step whose second window is refused loses the first one: the next step proves it again. -/
theorem failed_step_repeats_window : Function.Injective namingHash ∧
    ∃ (failing serving : Endpoints (List Nat)) (lost windows : List (Nat × Nat)) (e : SourceError)
      (more : Table Nat (List Nat)),
      provenTurn namingHash failing (startingHashes 5000 (namingHash (plainBlock 5000))) 63 =
          .failed lost e ∧
        provenTurn namingHash serving (startingHashes 5000 (namingHash (plainBlock 5000))) 63 =
          .proved windows more ∧
        (905, 5000) ∈ lost ∧ (905, 5000) ∈ windows := by
  have hlowest := lowest_startingHashes (plainChain 5000)
  have hget : (startingHashes 5000 (namingHash (plainBlock 5000)))[63]? = none := by
    rw [get?_startingHashes]; rfl
  have hlower : max (5000 - proofStep) 63 = 63 := by
    unfold proofStep; rfl
  have hfirst : max (5000 - (proofWindow - 1)) 63 = 905 := by
    unfold proofWindow; rfl
  have hsecond : max (904 - (proofWindow - 1)) 63 = 63 := by
    unfold proofWindow; rfl
  have hdown (least : Nat) (hleast : least ≤ 905) := proveDown_servingFrom namingHash_injective
    (plainChain 5000) 63 chunkBlocks 5000 proofWindow least 5000 ∅ (by omega) (by omega) (by omega)
  simp only [hfirst] at hdown
  obtain ⟨proven, hfailing⟩ := hdown 905 le_rfl
  obtain ⟨proven', hserving⟩ := hdown 0 (Nat.zero_le _)
  obtain ⟨_, hrest⟩ := proveDown_servingFrom namingHash_injective (plainChain 5000) 63
    chunkBlocks 5000 proofWindow 0 904 proven' (by omega) (by omega) (by omega)
  rw [if_pos hsecond] at hrest
  have hrefused : proveDown namingHash 63 chunkBlocks proofWindow (servingFrom (plainChain 5000) 905) 5000
      904 ((plainChain 5000).hash 904) proven = ([], .error (.request "timeout")) := by
    rw [proveDown]; rw [hsecond]; rfl
  rw [if_neg (by decide)] at hfailing hserving
  rw [hrefused] at hfailing
  rw [hrest] at hserving
  exact ⟨namingHash_injective, servingFrom (plainChain 5000) 905,
    servingFrom (plainChain 5000) 0, [(905, 5000)], [(905, 5000), (63, 904)],
    .rpc (.request "timeout"), _, provenTurn_below hget hlowest (by omega) hlower.symm hfailing,
    provenTurn_below hget hlowest (by omega) hlower.symm hserving, mem_cons_self, mem_cons_self⟩

structure Anchored (chain : AnchorChain hashSlow anchor anchorHash) (windows : List (Nat × Nat))
    (proven : Table Nat η) : Prop where
  ancestors : ∀ (n : Nat) (hash : η), proven[n]? = some hash → n ≤ anchor ∧ hash = chain.hash n
  ends : ∀ low n : Nat, low ∈ proven → low ≤ n → n ≤ anchor → (n + 1) % chunkBlocks = 0 → n ∈ proven
  opens : ∀ (request : Request η) (frames : List (Frame η)),
    (provenRange hashSlow anchor proven request).result = some (.ok frames) →
      frames = (List.range' request.chunk.range.start
        (request.chunk.range.last + 1 - request.chunk.range.start)).map chain.frame
  accepts : ∀ number ≤ anchor, (number + 1) % chunkBlocks = 0 ∨ number = anchor →
    ∀ (proofs : List (Endpoints η)) (detail : String),
      (provenHash hashSlow proofs proven number).result ≠ some (.error (.invalidPlan detail))
  halts : ∀ (number steps : Nat) (proofs : List (Endpoints η)), anchor ≤ number + steps * proofStep →
    steps < proofs.length → (provenHash hashSlow proofs proven number).result ≠ none
  resumes : ∀ (number : Nat) (endpoints : Endpoints η) (more : List (Nat × Nat)) (proven' : Table Nat η),
    provenTurn hashSlow endpoints proven number = .proved more proven' →
      more.head?.map Prod.snd = (lowest proven).map Prod.fst
  descend : windows.Pairwise Below

/-- Requests in any order, to any endpoints, leave a source that upholds its contract. -/
theorem anchored_serve (hinj : Function.Injective hashSlow)
    (chain : AnchorChain hashSlow anchor anchorHash) (requests : List (Request η)) :
    Anchored chain (serve hashSlow anchor requests (startingHashes anchor anchorHash)).1
      (serve hashSlow anchor requests (startingHashes anchor anchorHash)).2 := by
  have hserved := (Served.start chain).serve hinj requests
  rw [nil_append] at hserved
  have h := hserved.grounded
  refine ⟨h.ancestors, h.ends, fun _ _ hopen => opened_chunk hinj h hopen,
    fun number hle hend proofs _ hresult => ?_, fun number _ proofs hle hlen => ?_,
    fun number _ _ _ hturn => ?_, hserved.descend⟩
  · rcases h.provenHash_valid hinj hle hend _ hresult with hok | ⟨_, he⟩
    · cases hok
    · cases he
  · obtain ⟨low, hlow⟩ := h.exists_lowest
    exact h.provenHash_ends hinj hlow ((h.lowest_le hlow).trans hle) hlen
  · obtain ⟨low, _, hlowest, -, hwalk, -⟩ := h.turn hinj hturn; rw [hlowest, hwalk.first]; rfl

/-- A source anchored at block 200 that was asked for blocks 70 to 90 of a served chain. -/
theorem anchored_plain_serve :
    Anchored (plainChain 200)
      (serve namingHash 200 [⟨⟨⟨70, 90, by decide, by decide⟩, none⟩, [servingFrom (plainChain 200) 0],
        servingFrom (plainChain 200) 0⟩] (startingHashes 200 (namingHash (plainBlock 200)))).1
      (serve namingHash 200 [⟨⟨⟨70, 90, by decide, by decide⟩, none⟩, [servingFrom (plainChain 200) 0],
        servingFrom (plainChain 200) 0⟩] (startingHashes 200 (namingHash (plainBlock 200)))).2 :=
  anchored_serve namingHash_injective _ _

end Leani.Rpc.History
