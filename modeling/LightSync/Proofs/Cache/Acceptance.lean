import LightSync.Proofs.Block.Layout
import LightSync.Proofs.Cache.Backends
import Mathlib.Data.List.Induction

/-!
# Which batches the caches accept

A batch of blocks with hashes can only be refused for numbers that their fields do not hold. A row
cache encodes every block of the batch, and refuses it if any of them has such a number. A file
cache first drops the blocks that a later one for the same height replaces (`mem_onePerHeight_iff`)
and looks at those that are left. So what the row cache stores the file cache stores as well, but
the file cache also stores batches in which only replaced blocks are out of range
(`judged_of_hashes`).
-/

set_option autoImplicit false

namespace LightSync

/-! ## The last block for a height -/

namespace FileCache

/-- The block stands in a batch, and none behind it is for the same height. -/
def LastForHeight (bs : List Block) (b : Block) : Prop :=
  ∃ before behind, bs = before ++ b :: behind ∧
    ∀ a ∈ behind, sameHeight b.height a.height = false

theorem lastForHeight_concat {bs : List Block} {a b : Block} :
    LastForHeight (bs ++ [a]) b ↔
      b = a ∨ LastForHeight bs b ∧ sameHeight b.height a.height = false := by
  constructor
  · rintro ⟨before, behind, hsplit, hbehind⟩
    rcases List.eq_nil_or_concat behind with rfl | ⟨rest, x, rfl⟩
    · obtain ⟨-, hlast⟩ := List.append_inj' hsplit rfl
      cases hlast
      exact Or.inl rfl
    · rw [List.concat_eq_append, ← List.cons_append, ← List.append_assoc] at hsplit
      obtain ⟨rfl, hlast⟩ := List.append_inj' hsplit rfl
      cases hlast
      rw [List.concat_eq_append] at hbehind
      exact Or.inr ⟨⟨before, rest, rfl, fun y hy => hbehind y (List.mem_append_left _ hy)⟩,
        hbehind a (List.mem_append_right _ (List.mem_singleton.2 rfl))⟩
  · rintro (rfl | ⟨⟨before, behind, rfl, hbehind⟩, hsame⟩)
    · exact ⟨bs, [], rfl, nofun⟩
    · refine ⟨before, behind ++ [a], by simp, fun x hx => ?_⟩
      rcases List.mem_append.1 hx with hx | hx
      · exact hbehind x hx
      · rw [List.mem_singleton.1 hx]
        exact hsame

/-- A block that is added drives out those for its height, and stays. -/
theorem mem_addToBatch {batch : List Block} {a b : Block} :
    b ∈ addToBatch batch a ↔ b = a ∨ b ∈ batch ∧ sameHeight b.height a.height = false := by
  unfold addToBatch
  split
  · rename_i hany
    obtain ⟨x, hx, hsame⟩ := List.any_eq_true.1 hany
    rw [List.mem_map]
    constructor
    · rintro ⟨y, hy, rfl⟩
      split
      · exact Or.inl rfl
      · rename_i hy'
        exact Or.inr ⟨hy, Bool.eq_false_iff.2 hy'⟩
    · rintro (rfl | ⟨hb, hother⟩)
      · exact ⟨x, hx, if_pos hsame⟩
      · exact ⟨b, hb, if_neg (Bool.eq_false_iff.1 hother)⟩
  · rename_i hnone
    rw [List.mem_append, List.mem_singleton, or_comm]
    refine or_congr_right ⟨fun hb => ⟨hb, ?_⟩, And.left⟩
    exact Bool.eq_false_iff.2 fun hsame => hnone (List.any_eq_true.2 ⟨b, hb, hsame⟩)

/-- **The blocks that are left of a batch** are the last ones for their heights. -/
theorem mem_onePerHeight_iff {bs : List Block} {b : Block} :
    b ∈ onePerHeight bs ↔ LastForHeight bs b := by
  induction bs using List.reverseRecOn with
  | nil =>
      refine iff_of_false List.not_mem_nil ?_
      rintro ⟨before, behind, hsplit, -⟩
      simp at hsplit
  | append_singleton bs a ih =>
      have hconcat : onePerHeight (bs ++ [a]) = addToBatch (onePerHeight bs) a := by
        rw [onePerHeight, List.foldl_append]
        rfl
      rw [hconcat, mem_addToBatch, ih, lastForHeight_concat]

theorem LastForHeight.mem {bs : List Block} {b : Block} (h : LastForHeight bs b) : b ∈ bs :=
  mem_of_mem_onePerHeight (mem_onePerHeight_iff.2 h)

end FileCache

/-! ## Refusals -/

theorem Block.inRange_of_encode {b : Block} {data : Bytes} (h : b.encode = .ok data) : b.InRange :=
  check_eq_ok.1 (encode_eq_ok.1 h).1

theorem Block.encode_of_inRange {b : Block} (h : b.InRange) : ∃ data, b.encode = .ok data :=
  ⟨_, encode_eq_ok.2 ⟨check_eq_ok.2 h, rfl⟩⟩

theorem RowCache.exists_of_mapM_encoded_error {bs : List Block} {e : Failure}
    (h : bs.mapM encoded = .error e) : ∃ b ∈ bs, b.encode = .error e := by
  induction bs with
  | nil => cases h
  | cons b bs ih =>
      rw [List.mapM_cons] at h
      rcases Except.bind_eq_error.1 h with hb | ⟨row, -, h⟩
      · rcases Except.bind_eq_error.1 hb with hb | ⟨data, -, hb⟩
        · exact ⟨b, List.mem_cons_self, hb⟩
        · cases hb
      · rcases Except.bind_eq_error.1 h with hrest | ⟨rows, -, h⟩
        · obtain ⟨x, hx, hencode⟩ := ih hrest
          exact ⟨x, List.mem_cons_of_mem b hx, hencode⟩
        · cases h

namespace Cache

open FileCache (LastForHeight onePerHeight)

/-- The failure tells that a number of a block of the batch is out of range. -/
def RefusesNumber (bs : List Block) (e : Failure) : Prop :=
  ∃ b ∈ bs, ∃ requirement a, b.OutOfRange requirement a ∧ e = .refused requirement (some a)

variable {bs : List Block} {r : RowCache} {f : FileCache}

theorem refusesNumber_of_encode_error {b : Block} {e : Failure} (hb : b ∈ bs)
    (h : b.encode = .error e) : RefusesNumber bs e := by
  obtain ⟨requirement, a, hout, he⟩ := Block.outOfRange_of_encode_error h
  exact ⟨b, hb, requirement, a, hout, he⟩

theorem rows_refuse {b : Block} (hb : b ∈ bs) (hout : ¬ b.InRange) :
    ∃ e, RowCache.insertBlocks bs r = .error e r ∧ RefusesNumber bs e := by
  rw [RowCache.insertBlocks_eq]
  cases hmap : bs.mapM RowCache.encoded with
  | error e =>
      obtain ⟨x, hx, hencode⟩ := RowCache.exists_of_mapM_encoded_error hmap
      exact ⟨e, rfl, refusesNumber_of_encode_error hx hencode⟩
  | ok rows =>
      obtain ⟨data, hdata⟩ := (RowCache.mapM_encoded hmap).1 b hb
      exact absurd (Block.inRange_of_encode hdata) hout

/-- A file cache refuses a batch at the first block that is left of it and cannot be encoded. -/
theorem files_refuse (hdisk : f.faults = []) (hhash : ∀ b ∈ bs, ∃ hash, b.hash? = .ok hash)
    {b : Block} (hb : LastForHeight bs b) (hout : ¬ b.InRange) :
    ∃ e f', FileCache.insertBlocks bs f = .error e f' ∧ RefusesNumber bs e := by
  rcases FileCache.insertBlocks_cases bs f with
    ⟨ps, -, hps, -⟩ | ⟨ps, x, rest, e, part, created, hps, hstop, -, hinsert⟩
  · have hmem := FileCache.mem_onePerHeight_iff.2 hb
    rw [hps] at hmem
    obtain ⟨p, -, rfl⟩ := List.mem_map.1 hmem
    exact absurd (Block.inRange_of_encode p.encode) hout
  · have hrefused := hstop.refusal?_eq hdisk
    have hx : x ∈ onePerHeight bs := by
      rw [hps]
      exact List.mem_append_right _ List.mem_cons_self
    have hxbs := FileCache.mem_of_mem_onePerHeight hx
    obtain ⟨hash, hxhash⟩ := hhash x hxbs
    have hentry : ∃ m, BlockMeta.ofBlock x = .ok m :=
      ⟨_, Except.bind_eq_ok.2 ⟨hash, hxhash, rfl⟩⟩
    obtain ⟨m, hm⟩ := hentry
    have hencode : x.encode = .error e := by
      unfold FileCache.refusal? at hrefused
      rw [hm] at hrefused
      cases henc : x.encode with
      | error e' =>
          rw [henc] at hrefused
          rw [Option.some.inj hrefused]
      | ok data =>
          rw [henc] at hrefused
          cases hrefused
    exact ⟨e, _, hinsert, refusesNumber_of_encode_error hxbs hencode⟩

/-! ## What is stored -/

theorem rows_accept_iff (hr : Reachable (.rows r)) (hfault : r.db.fault = none) :
    (∃ r', RowCache.insertBlocks bs r = .ok () r') ↔ ∀ b ∈ bs, b.InRange := by
  have hrest : r.db.AtRest := sound_of_reachable hr
  constructor
  · rintro ⟨r', hinsert⟩ b hb
    obtain ⟨data, hdata⟩ := (RowCache.insertBlocks_ok hrest hinsert).1 b hb
    exact Block.inRange_of_encode hdata
  · exact fun hall => RowCache.insertBlocks_of_encode hrest hfault fun b hb =>
      Block.encode_of_inRange (hall b hb)

theorem files_accept_iff (hf : Reachable (.files f)) (hfault : f.index.fault = none)
    (hhash : ∀ b ∈ bs, ∃ hash, b.hash? = .ok hash) :
    (∃ f', FileCache.insertBlocks bs f = .ok () f') ↔ ∀ b, LastForHeight bs b → b.InRange := by
  obtain ⟨t, ht⟩ := sound_of_reachable hf
  constructor
  · rintro ⟨f', hinsert⟩ b hb
    obtain ⟨ps, hps, -⟩ := FileCache.insertBlocks_ok ht.atRest hinsert
    have hmem := FileCache.mem_onePerHeight_iff.2 hb
    rw [hps] at hmem
    obtain ⟨p, -, rfl⟩ := List.mem_map.1 hmem
    exact Block.inRange_of_encode p.encode
  · refine fun hall => ht.insertBlocks_parcels hfault fun b hb => ?_
    obtain ⟨hash, hbhash⟩ := hhash b (FileCache.mem_of_mem_onePerHeight hb)
    obtain ⟨data, hdata⟩ := Block.encode_of_inRange (hall b (FileCache.mem_onePerHeight_iff.1 hb))
    exact Parcel.exists_of_hash hbhash hdata

/-- What a row cache and a file cache make of one batch. Where no fault is injected, the row cache
stores it if all its numbers are in range, the file cache if those of the last block for each height
are; so they agree unless a block that is replaced inside the batch is out of range, and the file
cache stores whatever the row cache stores. A number that counts and is out of range is told, with
or without a fault, and the row cache is then as it was. -/
structure Judged (bs : List Block) (r : RowCache) (f : FileCache) : Prop where
  rows : r.db.fault = none →
    ((∃ r', RowCache.insertBlocks bs r = .ok () r') ↔ ∀ b ∈ bs, b.InRange)
  files : f.index.fault = none →
    ((∃ f', FileCache.insertBlocks bs f = .ok () f') ↔ ∀ b, LastForHeight bs b → b.InRange)
  alike : r.db.fault = none → f.index.fault = none →
    ((∃ r', RowCache.insertBlocks bs r = .ok () r') ↔
      (∃ f', FileCache.insertBlocks bs f = .ok () f') ∧
        ∀ b ∈ bs, ¬ LastForHeight bs b → b.InRange)
  rowsRefuse : ∀ b ∈ bs, ¬ b.InRange →
    ∃ e, RowCache.insertBlocks bs r = .error e r ∧ RefusesNumber bs e
  filesRefuse : ∀ b, LastForHeight bs b → ¬ b.InRange →
    ∃ e f', FileCache.insertBlocks bs f = .error e f' ∧ RefusesNumber bs e

/-- **Batches of blocks with hashes are refused for their numbers only**: by a row cache for those of
any block, by a file cache for those of the last block for each height. -/
theorem judged_of_hashes (hr : Reachable (.rows r)) (hf : Reachable (.files f))
    (hhash : ∀ b ∈ bs, ∃ hash, b.hash? = .ok hash) : Judged bs r f where
  rows := rows_accept_iff hr
  files hfault := files_accept_iff hf hfault hhash
  alike hrows hfiles := by
    rw [rows_accept_iff hr hrows, files_accept_iff hf hfiles hhash]
    constructor
    · exact fun hall => ⟨fun b hb => hall b hb.mem, fun b hb _ => hall b hb⟩
    · rintro ⟨hlast, hreplaced⟩ b hb
      by_cases h : LastForHeight bs b
      · exact hlast b h
      · exact hreplaced b hb h
  rowsRefuse b hb hout := rows_refuse hb hout
  filesRefuse b hb hout := by
    obtain ⟨t, ht⟩ := sound_of_reachable hf
    exact files_refuse ht.disk hhash hb hout

/-- A block with a fee that no field holds, replaced inside the batch by one for its height. -/
def replacingBatch : List Block := [overpaid 1 1, linkedBlock 1 2 0 [], linkedBlock 2 3 2 []]

theorem hash?_replacingBatch : ∀ b ∈ replacingBatch, ∃ hash, b.hash? = .ok hash := by
  intro b hb
  have hlength : ∀ b ∈ replacingBatch, b.hash.length = Block.hashLength := by decide
  exact ⟨b.hash, if_pos (hlength b hb)⟩

theorem reachable_emptyRows : Reachable (.rows emptyRows) := .fresh ⟨rfl, rfl⟩

theorem judged_of_hashes_replacing :
    Reachable (.rows emptyRows) ∧ Reachable (.files emptyFiles) ∧
      (∀ b ∈ replacingBatch, ∃ hash, b.hash? = .ok hash) ∧
      Judged replacingBatch emptyRows emptyFiles :=
  ⟨reachable_emptyRows, reachable_emptyFiles, hash?_replacingBatch,
    judged_of_hashes reachable_emptyRows reachable_emptyFiles hash?_replacingBatch⟩

/-- The two kinds do not accept the same batches: a block that is replaced inside the batch is not
looked at by a file cache. -/
theorem not_alike_replacing : ¬ ∀ (bs : List Block) (r : RowCache) (f : FileCache),
    (∀ b ∈ bs, ∃ hash, b.hash? = .ok hash) → Reachable (.rows r) → Reachable (.files f) →
    r.db.fault = none → f.index.fault = none →
    ((∃ r', RowCache.insertBlocks bs r = .ok () r') ↔
      ∃ f', FileCache.insertBlocks bs f = .ok () f') := by
  intro h
  have hrows : (RowCache.insertBlocks replacingBatch).failure? emptyRows =
      some (.refused .fee (some (-1))) := by decide +kernel
  have hfiles : (FileCache.insertBlocks replacingBatch).failure? emptyFiles = none := by
    decide +kernel
  obtain ⟨r', hrefused⟩ := Action.failure?_eq_some.1 hrows
  have hstored : ∃ f', FileCache.insertBlocks replacingBatch emptyFiles = .ok () f' := by
    unfold Action.failure? at hfiles
    split at hfiles
    · rename_i f' heq
      exact ⟨f', heq⟩
    · cases hfiles
  obtain ⟨r'', hstored'⟩ := (h _ _ _ hash?_replacingBatch reachable_emptyRows reachable_emptyFiles rfl rfl).2 hstored
  rw [hrefused] at hstored'
  cases hstored'

end Cache
end LightSync
