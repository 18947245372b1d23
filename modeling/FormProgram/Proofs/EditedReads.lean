/-
What an edit does to predicates that read too early.

What a predicate is missing depends on the blocks before its own, in whatever order they come
(`Block.missing_perm`), and an edit changes these in two ways only: blocks come to stand before it, and it misses
their questions no more (`Block.missing_append`), or they cease to, and it misses what only they have collected
(`Block.missing_eq_union`). A move does the one to the tree that goes down and the other to the tree that goes up; an
insertion does the first to what stands behind the new block, so it cannot put another block's predicate wrong.
-/
import FormProgram.Proofs.Appending
import FormProgram.Proofs.RefusedMoves

set_option autoImplicit false

namespace FormProgram

open LateRead (missingIn ofBlocks)

variable {l m front first second back before more : List Block} {b : Block} {id : BlockId} {d : Direction}
  {kind : PredicateKind}

namespace Block

/-- What the predicate of a kind reads that `first` collects, and that is not collected with these blocks before. -/
def readsFrom (b : Block) (kind : PredicateKind) (first before : List Block) : SortedSet QuestionId :=
  (b.reads kind).filter fun q =>
    (first.flatMap questionIds).contains q && !(b.collected before kind).contains q

theorem mem_readsFrom {q : QuestionId} :
    q ∈ b.readsFrom kind first before ↔
      q ∈ b.reads kind ∧ q ∈ first.flatMap questionIds ∧ q ∉ b.collected before kind := by
  simp [readsFrom]

theorem missing_perm (h : more.Perm before) : b.missing kind more = b.missing kind before := by
  refine SortedSet.ext fun q => ?_
  rw [mem_missing, mem_missing, mem_collected, mem_collected, (h.flatMap_right questionIds).mem_iff]

theorem missing_append :
    b.missing kind (before ++ more) =
      (b.missing kind before).filter fun q => !(more.flatMap questionIds).contains q := by
  refine SortedSet.ext fun q => ?_
  simp only [SortedSet.mem_filter, mem_missing, mem_collected, List.flatMap_append, List.mem_append,
    Bool.not_eq_true', List.contains_eq_mem, decide_eq_false_iff_not]
  tauto

theorem missing_eq_union :
    b.missing kind before = (b.missing kind (before ++ more)).union (b.readsFrom kind more before) := by
  refine SortedSet.ext fun q => ?_
  simp only [SortedSet.mem_union, mem_missing, mem_readsFrom, mem_collected, List.flatMap_append, List.mem_append]
  tauto

end Block

/-- What becomes of the reports on predicates when `first` and `second`, which stand between `front` and `back`,
are exchanged: `l` is the list before, `m` the list after. -/
structure ReadsExchanged (l m front first second back : List Block) : Prop where
  around : ∀ b ∈ front ++ back, ∀ kind, missingIn (ofBlocks m) b.id kind = missingIn (ofBlocks l) b.id kind
  /-- What goes behind `second` has its questions collected by then. -/
  later : ∀ b ∈ first, ∀ kind, missingIn (ofBlocks m) b.id kind =
    (missingIn (ofBlocks l) b.id kind).filter fun q => !(second.flatMap Block.questionIds).contains q
  /-- What goes before `first` loses what only `first` has collected. -/
  earlier : ∀ passed b rest, second = passed ++ b :: rest → ∀ kind, missingIn (ofBlocks m) b.id kind =
    (missingIn (ofBlocks l) b.id kind).union (b.readsFrom kind first (front ++ passed))

/-- The report on a block, wherever it stands in the list. -/
theorem missingIn_of_split (hd : DistinctIds l) (before after : List Block) (hl : before ++ b :: after = l) :
    missingIn (ofBlocks l) b.id kind = b.missing kind before := by
  subst hl
  exact LateRead.missingIn_ofBlocks hd kind

/-- **An exchange of two segments** moves the reports on their blocks by each other's questions, and no others. -/
theorem readsExchanged (hd : DistinctIds (front ++ first ++ second ++ back)) :
    ReadsExchanged (front ++ first ++ second ++ back) (front ++ second ++ first ++ back) front first second back := by
  have hd' : DistinctIds (front ++ second ++ first ++ back) :=
    (DistinctIds.perm (exchange_perm front first second back)).2 hd
  refine ⟨fun b hb kind => ?_, fun b hb kind => ?_, fun passed b rest hsecond kind => ?_⟩
  · rcases List.mem_append.1 hb with hb | hb
    · obtain ⟨xs, ys, rfl⟩ := List.append_of_mem hb
      rw [missingIn_of_split hd' xs (ys ++ second ++ first ++ back) (by simp),
        missingIn_of_split hd xs (ys ++ first ++ second ++ back) (by simp)]
    · -- behind both stand the same blocks as before, in another order
      obtain ⟨xs, ys, rfl⟩ := List.append_of_mem hb
      rw [missingIn_of_split hd' (front ++ second ++ first ++ xs) ys (by simp),
        missingIn_of_split hd (front ++ first ++ second ++ xs) ys (by simp)]
      exact Block.missing_perm (exchange_perm front first second xs)
  · -- before a block of `first` stands what stood there, and `second`
    obtain ⟨xs, ys, rfl⟩ := List.append_of_mem hb
    rw [missingIn_of_split hd' (front ++ second ++ xs) (ys ++ back) (by simp),
      missingIn_of_split hd (front ++ xs) (ys ++ second ++ back) (by simp), ← Block.missing_append]
    exact Block.missing_perm (perm_outside front second xs)
  · -- before a block of `second` stands what stood there, without `first`
    subst hsecond
    rw [missingIn_of_split hd' (front ++ passed) (rest ++ first ++ back) (by simp),
      missingIn_of_split hd (front ++ first ++ passed) (rest ++ back) (by simp),
      Block.missing_perm (perm_outside front first passed), ← Block.missing_eq_union]

/-- Where predicates were in order, an exchange puts one wrong exactly when it reads, in the segment that goes up,
what only the other segment has collected. -/
theorem readsInOrder_exchanged (hd : DistinctIds (front ++ first ++ second ++ back))
    (hr : readsInOrder (front ++ first ++ second ++ back) = true) :
    readsInOrder (front ++ second ++ first ++ back) = false ↔
      ∃ passed b rest kind q, second = passed ++ b :: rest ∧ q ∈ b.readsFrom kind first (front ++ passed) := by
  have hperm := exchange_perm front first second back
  have hreads := readsExchanged hd
  rw [readsInOrder_eq_false_iff_missing ((DistinctIds.perm hperm).2 hd)]
  constructor
  · rintro ⟨b, hb, kind, q, hq⟩
    have hempty := (readsInOrder_iff hd).1 hr b (hperm.mem_iff.1 hb) kind
    have hplace : b ∈ front ++ back ∨ b ∈ first ∨ b ∈ second := by
      simp only [List.mem_append] at hb ⊢
      tauto
    rcases hplace with hb | hb | hb
    · rw [hreads.around b hb kind, hempty] at hq
      exact absurd hq SortedSet.not_mem_empty
    · rw [hreads.later b hb kind, hempty, SortedSet.mem_filter] at hq
      exact absurd hq.1 SortedSet.not_mem_empty
    · obtain ⟨passed, rest, hsecond⟩ := List.append_of_mem hb
      rw [hreads.earlier passed b rest hsecond kind, hempty, SortedSet.mem_union] at hq
      exact ⟨passed, b, rest, kind, q, hsecond, hq.resolve_left SortedSet.not_mem_empty⟩
  · rintro ⟨passed, b, rest, kind, q, hsecond, hq⟩
    refine ⟨b, by simp [hsecond], kind, q, ?_⟩
    rw [hreads.earlier passed b rest hsecond kind]
    exact SortedSet.mem_union.2 (.inr hq)

/-- The trees that a move of the block exchanges, that of its neighbour and its own, in the order in which they
stand in the list. -/
structure MovesPast (l : List Block) (id : BlockId) (d : Direction) (front first second back : List Block) :
    Prop where
  list : l = front ++ first ++ second ++ back
  siblings : ∃ x y, (d.mover x y).id = id ∧ Precedes l x y ∧ first.head? = some x ∧ second.head? = some y
  firstTree : TreeAt l front.length first.length
  secondTree : TreeAt l (front ++ first).length second.length

theorem exists_swapped_iff :
    (∃ x, x.id = id ∧ Swapped l x d m) ↔
      ∃ front first second back, MovesPast l id d front first second back ∧ m = front ++ second ++ first ++ back := by
  constructor
  · rintro ⟨_, rfl, x, y, rfl, hp, front, below, below', back, hl, rfl, htree, htree'⟩
    exact ⟨front, x :: below, y :: below', back, ⟨hl, ⟨x, y, rfl, hp, rfl, rfl⟩, htree, htree'⟩, rfl⟩
  · rintro ⟨front, first, second, back, ⟨hl, ⟨x, y, hid, hp, hx, hy⟩, htree, htree'⟩, rfl⟩
    obtain ⟨below, rfl⟩ := List.head?_eq_some_iff.1 hx
    obtain ⟨below', rfl⟩ := List.head?_eq_some_iff.1 hy
    exact ⟨_, hid, x, y, rfl, hp, front, below, below', back, hl, rfl, htree, htree'⟩

namespace MovesPast

theorem readsExchanged (h : MovesPast l id d front first second back) (hd : DistinctIds l) :
    ReadsExchanged l (front ++ second ++ first ++ back) front first second back := by
  obtain ⟨rfl, -, -, -⟩ := h
  exact FormProgram.readsExchanged hd

theorem readsInOrder_eq_false_iff (h : MovesPast l id d front first second back) (hd : DistinctIds l)
    (hr : readsInOrder l = true) :
    readsInOrder (front ++ second ++ first ++ back) = false ↔
      ∃ passed b rest kind q, second = passed ++ b :: rest ∧ q ∈ b.readsFrom kind first (front ++ passed) := by
  obtain ⟨rfl, -, -, -⟩ := h
  exact readsInOrder_exchanged hd hr

end MovesPast

/-- **What a move does to predicates.** In a canonical list with distinct ids a move leaves the report on every
block outside of the two trees as it was. Of a block in the tree that goes down it takes away the questions of the
other tree; to a block in the tree that goes up it adds what the predicate reads in the other tree and not in a
block that then stands before it or, for eligibility, in its own. So a move of a program whose predicates were in
order is refused exactly when some predicate in the tree that goes up reads such a question. -/
theorem moved_reads :
    (∀ l : List Block, isCanonical l = true → DistinctIds l → ∀ id d m, moveBlock l id d = .ok (.moved m) →
      ∃ front first second back, MovesPast l id d front first second back ∧ m = front ++ second ++ first ++ back ∧
        ReadsExchanged l m front first second back) ∧
    ∀ (events : List Event) (p : Program), p ∈ live events → DistinctIds p.order.blocks → p.readsInOrder = true →
      ∀ id d, p.move id d = .error (.illegalPredicateOrdering id d) ↔
        ∃ front first second back, MovesPast p.order.blocks id d front first second back ∧
          ∃ passed b rest kind q, second = passed ++ b :: rest ∧ q ∈ b.readsFrom kind first (front ++ passed) := by
  constructor
  · intro l hc hd id d m hm
    have hs := (moveBlock_eq_moved_iff (isCanonical_iff_nested.1 hc) hd).1 hm
    obtain ⟨front, first, second, back, hpast, rfl⟩ := exists_swapped_iff.1 hs
    exact ⟨front, first, second, back, hpast, rfl, hpast.readsExchanged hd⟩
  · intro events p hp hd hr id d
    rw [(live_truthful events p hp).move_refused_iff_of_distinct hd]
    constructor
    · rintro ⟨x, m, hx, hs, hlate⟩
      obtain ⟨front, first, second, back, hpast, rfl⟩ := exists_swapped_iff.1 ⟨x, hx, hs⟩
      exact ⟨front, first, second, back, hpast, (hpast.readsInOrder_eq_false_iff hd hr).1 hlate⟩
    · rintro ⟨front, first, second, back, hpast, hread⟩
      obtain ⟨x, hx, hs⟩ := exists_swapped_iff.2 ⟨front, first, second, back, hpast, rfl⟩
      exact ⟨x, _, hx, hs, (hpast.readsInOrder_eq_false_iff hd hr).2 hread⟩

/-- In `crossed` the job goes up past the income, which then reads it in time; and where the job is asked for first,
the income stays behind it. -/
theorem moved_reads_job :
    (∃ front first second back, MovesPast crossed 3 .up front first second back ∧
      [crossed[0], crossed[2], crossed[1], crossed[3]] = front ++ second ++ first ++ back ∧
      ReadsExchanged crossed [crossed[0], crossed[2], crossed[1], crossed[3]] front first second back) ∧
    let p := Draft.build { blocks := [crossed[2], crossed[1]] }
    DistinctIds p.order.blocks ∧ p.readsInOrder = true ∧
      ∃ front first second back, MovesPast p.order.blocks 2 .up front first second back ∧
        ∃ passed b rest kind q, second = passed ++ b :: rest ∧ q ∈ b.readsFrom kind first (front ++ passed) := by
  obtain ⟨hmoved, hrefused⟩ := moved_reads
  refine ⟨hmoved crossed (by decide) (by decide) 3 .up _ rfl, ?_⟩
  intro p
  have hp : p ∈ live [.build p.toDraft] := List.mem_singleton.2 rfl
  have hc : isCanonical p.blocks = true := by decide
  have hblocks : p.order.blocks = p.blocks := (Program.Truthful.build _).order_blocks_of_canonical hc
  have hd : DistinctIds p.order.blocks := by
    rw [hblocks]
    decide
  have hreads : p.readsInOrder = true := by decide +kernel
  have hmove : p.move 2 .up = .error (.illegalPredicateOrdering 2 .up) := by
    rw [Program.move, hblocks]
    rfl
  exact ⟨hd, hreads, (hrefused _ p hp hd hreads 2 .up).1 hmove⟩

/-- What becomes of the reports on predicates when `b` comes to stand between `front` and `back`: `old` is the
report before, `new` the one after. -/
structure ReadsInserted (old new : List LateRead) (b : Block) (front back : List Block) : Prop where
  before : ∀ c ∈ front, ∀ kind, missingIn new c.id kind = missingIn old c.id kind
  behind : ∀ c ∈ back, ∀ kind, missingIn new c.id kind =
    (missingIn old c.id kind).filter fun q => !b.questionIds.contains q
  /-- What is new in the report is about `b`. -/
  other : ∀ v ∈ new, v.block ≠ b.id →
    ∃ v' ∈ old, v'.block = v.block ∧ v'.kind = v.kind ∧ ∀ q ∈ v.missing, q ∈ v'.missing

/-- **One block more in a list** can only take away from the reports on the others. -/
theorem readsInserted (hd : DistinctIds (front ++ b :: back)) :
    ReadsInserted (ofBlocks (front ++ back)) (ofBlocks (front ++ b :: back)) b front back := by
  have hdl : DistinctIds (front ++ back) := (DistinctIds.cons.1 ((DistinctIds.perm List.perm_middle).1 hd)).2
  have hbefore : ∀ c ∈ front, ∀ kind, missingIn (ofBlocks (front ++ b :: back)) c.id kind =
      missingIn (ofBlocks (front ++ back)) c.id kind := by
    intro c hc kind
    obtain ⟨xs, ys, rfl⟩ := List.append_of_mem hc
    rw [missingIn_of_split hd xs (ys ++ b :: back) (by simp), missingIn_of_split hdl xs (ys ++ back) (by simp)]
  have hbehind : ∀ c ∈ back, ∀ kind, missingIn (ofBlocks (front ++ b :: back)) c.id kind =
      (missingIn (ofBlocks (front ++ back)) c.id kind).filter fun q => !b.questionIds.contains q := by
    intro c hc kind
    obtain ⟨xs, ys, rfl⟩ := List.append_of_mem hc
    have hmore : (front ++ b :: xs).Perm (front ++ xs ++ [b]) := by simpa using perm_outside front [b] xs
    rw [missingIn_of_split hd (front ++ b :: xs) ys (by simp), missingIn_of_split hdl (front ++ xs) ys (by simp),
      Block.missing_perm hmore, Block.missing_append, List.flatMap_singleton]
  refine ⟨hbefore, hbehind, fun v hv hne => ?_⟩
  -- an entry has a question, and that question the old report has for the same predicate
  obtain ⟨c, hc, hid⟩ := LateRead.block_of_mem_ofBlocksAfter hv
  have hkept : ∀ q ∈ v.missing, q ∈ missingIn (ofBlocks (front ++ back)) v.block v.kind := by
    intro q hq
    rw [← LateRead.missingIn_of_mem hd hv] at hq
    rw [hid] at hq hne ⊢
    rcases List.mem_append.1 hc with hc | hc
    · rwa [hbefore c hc] at hq
    · rcases List.mem_cons.1 hc with rfl | hc
      · exact absurd rfl hne
      · rw [hbehind c hc, SortedSet.mem_filter] at hq
        exact hq.1
  obtain ⟨q, hq⟩ := LateRead.exists_missing hv
  obtain ⟨v', hv', hblock, hkind, hsame⟩ := LateRead.exists_of_mem_missingIn (hkept q hq)
  exact ⟨v', hv', hblock, hkind, hsame ▸ hkept⟩

/-- **What an insertion does to predicates.** Into a program without defects a block is inserted between others that
keep their order. The reports on those before it stay as they were, those on the ones behind it lose its questions, and
what is reported anew is about the block itself. -/
theorem inserted_reads (events : List Event) (p q : Program) (hp : p ∈ live events) (h : p.defects = []) (b : Block)
    (hi : p.insert b = .ok q) :
    ∃ front back, (front ++ back).Perm p.blocks ∧ p.order.blocks = front ++ back ∧ q.blocks = front ++ b :: back ∧
      ReadsInserted p.lateReads q.lateReads b front back := by
  have ht := live_truthful events p hp
  have hf := Program.formed_of_defects h
  have hfollows := ht.insert_follows hf hi
  have hnew : ∀ c ∈ p.blocks, c.id ≠ b.id := by
    intro c hc hid
    rw [(ht.insert_duplicate_iff hf).2 ⟨c, hc, hid⟩] at hi
    cases hi
  obtain ⟨front, back, hl, hm⟩ := ht.insert_between hf hi
  have hd : DistinctIds q.blocks :=
    (DistinctIds.perm hfollows.blocks).2 (DistinctIds.cons.2 ⟨hnew, hf.distinct⟩)
  have hq : q.order.blocks = q.blocks := (Program.Truthful.insert hi).order_blocks_of_canonical hfollows.canonical
  refine ⟨front, back, hl ▸ ht.order_perm hf, hl, hm, ?_⟩
  rw [Program.lateReads, Program.lateReads, hq, hl, hm]
  rw [hm] at hd
  exact readsInserted hd

/-- The income is asked for under the condition that there is a job, before the job is; jobs of the members, inserted
under them, come before both. -/
theorem inserted_reads_jobs :
    let members : Block := { id := 1, name := "members", isEnumerator := true }
    let jobs : Block := { crossed[2] with id := 4, enumerator := some 1 }
    let p := Draft.build { blocks := [members, crossed[1], crossed[2]] }
    p.defects = [] ∧ missingIn p.lateReads 2 .visibility = .ofList [9] ∧
      ∃ q, p.insert jobs = .ok q ∧ q.blocks.map (·.id) = [1, 4, 2, 3] ∧ missingIn q.lateReads 2 .visibility = ∅ := by
  intro members jobs p
  have hp : p ∈ live [.build p.toDraft] := List.mem_singleton.2 rfl
  have hdefects : p.defects = [] := by decide +kernel
  have hold : missingIn p.lateReads 2 .visibility = .ofList [9] := by decide +kernel
  have hc : isCanonical p.blocks = true := by decide
  have hblocks : p.order.blocks = p.blocks := (Program.Truthful.build _).order_blocks_of_canonical hc
  let q := p.order.withBlocks [members, jobs, crossed[1], crossed[2]]
  have hi : p.insert jobs = .ok q := by
    rw [Program.insert, hblocks]
    rfl
  obtain ⟨front, back, -, -, hm, hr⟩ := inserted_reads _ p q hp hdefects jobs hi
  have hd : DistinctIds q.blocks := by decide
  have hsplit : q.blocks = [members] ++ jobs :: [crossed[1], crossed[2]] := rfl
  obtain ⟨-, rfl⟩ := sides_unique hd.nodup hsplit hm
  have hincome : missingIn q.lateReads 2 .visibility =
      (missingIn p.lateReads 2 .visibility).filter fun x => !jobs.questionIds.contains x :=
    hr.behind crossed[1] List.mem_cons_self .visibility
  refine ⟨hdefects, hold, q, hi, rfl, ?_⟩
  rw [hincome, hold]
  decide

end FormProgram
