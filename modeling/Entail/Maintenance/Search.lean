import Entail.Maintenance.Deletion

/-!
# Searching for proofs before deleting

`Search.delete` deletes a fact of a level only once it finds no proof of it. A check of a fact goes
back through the rules that can derive it and examines the facts that these need (`explore`), while
everything that turns out to be proved is applied forward at once (`saturate`). A fact is examined
at most once at a level. It may be proved before anybody asks for it; it is then only marked as
delayed and taken up when it is examined.

Facts are examined depth first (`conclude`): the innermost examination goes on until it yields a
fact that was not examined yet, or until its own fact is proved or nothing is left to look at. An
error leaves the examinations that it interrupts as they are, and the next check goes on with them.

With equality the facts proved are kept in the normal form of the classes proved so far. A fact of
the materialization stands for all facts that its classes make equal to it, and it is kept only if
each of them is proved (`allProved`).
-/

namespace Entail

namespace Run

/-- Whether a row is proved at the current level. -/
def isProved (r : Run) (row : RowIndex) : Bool := (r.levelFlags row).any Flag.Level.proved

open Flag.Level in
/-- Whether a row is proved at the current level and its fact is a normal form. -/
def isProvedNormal (r : Run) (row : RowIndex) : Bool :=
  (r.levelFlags row).only (proved ||| provedMerged) proved

open Flag.Update in
/-- Whether it is known that a row has no proof. -/
def isDisproved (r : Run) (row : RowIndex) : Bool :=
  (r.flags row).only (disproved ||| added) disproved

end Run

namespace Search

variable (c : Context) (task : DeletionTask)

/-- What came of recording that a fact is proved. -/
inductive Recorded where
  /-- The fact is queued, for the first time or again. -/
  | queued (isNew : Bool)
  /-- The fact waits until it is examined, for the first time or again. -/
  | delayed (isNew : Bool)
  deriving DecidableEq, Repr, Inhabited

/-- Which rows can support a fact whose proof is looked for. -/
def supports (r : Run) (role : Role) (_ : Occurrence) (row : RowIndex) (status : Status) : Bool :=
  match role with
  | .supportingNegative | .reevaluationNegative => (r.standing row status).withAdded
  | _ => Standing.before status && !r.isDisproved row

/-- The row that stands for a fact when it is asked whether it was examined. -/
def examinedRow? (t : Triple) (row : RowIndex) (r : Run) : Option RowIndex :=
  match c.steady? r with
  | none => some row
  | some classes =>
    let normal := classes.normalizeTriple t
    if normal = t then some row else r.table.index? normal

/-- Records that a fact is proved. It is queued if it was examined, and delayed if not. -/
def record (t : Triple) : Routine Recorded := do
  let row ← Routine.rowOf t
  let examined ← Routine.reads fun r =>
    (examinedRow? c t row r).any fun row => (r.levelFlags row).any Flag.Level.checked
  if examined then
    let isNew ← Routine.addLevelFlags row Flag.Level.provedNew
    if isNew then Routine.enqueue .proved row
    pure (.queued isNew)
  else
    let isNew ← Routine.addLevelFlags row Flag.Level.delayed
    pure (.delayed isNew)

/-- Announces what came of recording a fact. -/
def report (t : Triple) : Recorded → Routine Unit
  | .queued isNew => c.announce (.derived t isNew)
  | .delayed true => c.announce (.provedDelayed t)
  | .delayed false => pure ()

/-- Records and announces the normal form of a fact. -/
def proveNormal (t : Triple) : Routine Unit := do
  let normal ← Routine.reads fun r => r.proving.normalizeTriple t
  report c normal (← record c normal)

/-- Gives a proved fact the normal form that it has now. -/
def renormalize (row : RowIndex) : Routine Unit := do
  if ← Routine.reads fun r => r.isProvedNormal row then
    let t ← Routine.factOf row
    let normal ← Routine.reads fun r => r.proving.normalizeTriple t
    if normal ≠ t then
      if ← Routine.addLevelFlags row Flag.Level.provedMerged then
        report c normal (← record c normal)

/-- Which rows count as present while a rule is applied anew after a merge. -/
def uniteFilter (r : Run) (role : Role) (_ : Occurrence) (row : RowIndex) (status : Status) :
    Bool :=
  match role with
  | .reevaluationPositive => r.isProvedNormal row
  | _ => (r.standing row status).withAdded

/-- Brings the facts proved and the rules up to date after a resource was absorbed. -/
def absorb (source : Nat) : Routine Unit := do
  Position.all.forM fun p => do
    (← Routine.reads fun r => r.table.rowsAt source p).forM (renormalize c)
  let rules ← Routine.reads fun r => c.rules.rulesMentioning (some r.proving) source task.scope
  let view : View Run :=
    { table := Run.table, classes := fun r => some r.proving, accepts := uniteFilter }
  rules.forM fun rule => c.rules.evaluateRule view rule fun _ head => proveNormal c head

/-- Merges two resources that are proved equal. -/
def unite (first second : Nat) : Routine Unit := do
  let d := c.dictionary.mergeDirection c.mode.equality.uniqueNames first second
  let merged ← Routine.mergeProving d.source d.target
  if merged then
    c.announce (.constantMerged d.source d.target)
    absorb c task d.source
  if d.clash then
    c.announce (.inconsistency d.target)
    let nothing ← Routine.reads fun r =>
      (⟨d.target, r.proving.normalize rdfTypeId, r.proving.normalize nothingId⟩ : Triple)
    proveNormal c nothing

/-- Records that a rule derives a fact from facts proved. With equality, what is not in normal form
does not count. -/
def prove (t : Triple) : Routine Unit := do
  let equality := c.mode.equality.enabled
  let normal ← Routine.reads fun r => !equality || r.proving.isNormalTriple t
  if normal then
    let recorded ← record c t
    report c t recorded
    if recorded = .queued true ∧ equality ∧ t.isSameAs ∧ t.subject ≠ t.object then
      unite c task t.subject t.object

/-- The row of the normal form of a fact, where `row` is the row of `t`. -/
def normalRow? (t : Triple) (row : RowIndex) (combination : Triple) (r : Run) : Option RowIndex :=
  let normal := r.proving.normalizeTriple combination
  if normal = t then some row else r.table.index? normal

/-- Whether everything that a fact stands for is proved. -/
def allProved (row : RowIndex) (t : Triple) : Routine Bool := do
  match ← Routine.reads c.steady? with
  | none => Routine.reads fun r => r.isProved row
  | some classes =>
    let flags ← Routine.reads fun r => r.flags row
    if flags.any Flag.Update.disproved then pure false
    else if flags.any Flag.Update.normalProved then pure true
    else
      let proved ← Routine.reads fun r =>
        (classes.combinations t).all fun u => (normalRow? t row u r).any r.isProved
      if proved then discard <| Routine.addFlags row Flag.Update.normalProved
      pure proved

/-- Whether nothing that a fact stands for is proved. -/
def noneProved (row : RowIndex) : Routine Bool := do
  match ← Routine.reads c.steady? with
  | none => Routine.reads fun r => !r.isProved row
  | some classes =>
    if (← Routine.reads fun r => r.flags row).any Flag.Update.normalProved then pure false
    else
      let t ← Routine.factOf row
      Routine.reads fun r =>
        (classes.combinations t).all fun u => !(normalRow? t row u r).any r.isProved

/-- Whether for every member of a class the reflexive fact, if there is one, is proved. -/
def reflexiveProved (id : Nat) (r : Run) : Bool :=
  (r.steady.members id).all fun member =>
    match r.table.index? (r.proving.normalizeTriple (.reflexive member)) with
    | some row => r.isProved row
    | none => true

/-- Whether a base fact mentions a resource. -/
def isAsserted (id : Nat) (r : Run) : Bool :=
  (r.table.rowsMentioning id).any fun row => (r.table.status row).any Status.asserted

/-- Queues a fact that needs no search to be proved. -/
def queueProved (row : RowIndex) (t : Triple) (fromAsserted fromDelayed fromRule : Bool) :
    Routine Unit := do
  if ← Routine.addLevelFlags row Flag.Level.provedNew then
    Routine.enqueue .proved row
    c.announce (.proved t fromAsserted fromDelayed fromRule)

/-- Queues a fact as proved if its row is asserted, delayed, or derived by a rule that needs no
search; `byRule` says whether the last is so. `proved` gives the row and the fact to queue. -/
def queueIfProved (row : RowIndex) (byRule : Routine Bool) (proved : Routine (RowIndex × Triple)) :
    Routine Unit := do
  let fromAsserted ← Routine.reads fun r => (r.table.status row).any Status.asserted
  let delayed ← Routine.reads fun r => (r.levelFlags row).any Flag.Level.delayed
  let fromDelayed := !fromAsserted && delayed
  let fromRule ← if fromAsserted || fromDelayed then pure false else byRule
  if fromAsserted || fromDelayed || fromRule then
    let (row, t) ← proved
    queueProved c row t fromAsserted fromDelayed fromRule

/-- Queues as proved the reflexive facts of the members of a class that base facts mention. -/
def queueReflexive (classes : Classes) (id : Nat) : Routine Unit :=
  (classes.members id).forM fun member => do
    if ← Routine.reads (isAsserted member) then
      let t ← Routine.reads fun r => Triple.reflexive (r.proving.normalize member)
      let row ← Routine.rowOf t
      queueProved c row t true false false

/-- Queues one of the facts that an examined fact stands for, if it needs no search to be proved. -/
def queueCombination (row : RowIndex) (t : Triple) : Routine Unit :=
  queueIfProved c row (pure (c.rules.isPivotlessFact t task.scope)) do
    let normal ← Routine.reads fun r => r.proving.normalizeTriple t
    if normal = t then pure (row, t)
    else
      let row ← Routine.rowOf normal
      pure (row, normal)

/-- Queues what an examined fact stands for, as far as that needs no search to be proved. -/
def queueObvious (row : RowIndex) (t : Triple) : Routine Unit := do
  match ← Routine.reads c.steady? with
  | none =>
    queueIfProved c row (c.rules.provedNonrecursively (c.view supports) t task.scope)
      (pure (row, t))
  | some classes =>
    if t.isSameAs then queueReflexive c classes t.subject
    (classes.combinations t).zipIdx.forM fun (u, i) => do
      let found ← if i = 0 then pure (some row) else Routine.reads fun r => r.table.index? u
      match found with
      | none => pure ()
      | some row => queueCombination c task row u

/-- Which rows count as present while a proved row is applied forward. -/
def forwardFilter (current : RowIndex) (r : Run) (role : Role) (o : Occurrence) (row : RowIndex)
    (status : Status) : Bool :=
  match role with
  | .positiveBeforePivot | .positiveAfterPivot =>
    if c.mode.usesLevels && some o.level != task.level then
      Standing.before status && !r.isDisproved row
    else r.isProvedNormal row && (role == .positiveAfterPivot || row != current)
  | _ => (r.standing row status).withAdded

/-- Treats a proved fact by the rules of equality. The answer says whether the other rules have to
be applied to it as well. -/
def equate (row : RowIndex) (t : Triple) : Routine Bool := do
  let normal ← Routine.reads fun r => r.proving.normalizeTriple t
  if normal ≠ t then
    discard <| Routine.addLevelFlags row Flag.Level.provedMerged
    discard <| record c normal
    pure false
  else if t.isSameAs ∧ t.subject ≠ t.object then
    unite c task t.subject t.object
    pure false
  else
    t.toList.forM fun id => do
      if ← Routine.checkReflexivity id 1 then discard <| record c (.reflexive id)
    pure true

open Flag.Level in
/-- Applies the rules to a row that is queued as proved. -/
def forward (row : RowIndex) : Routine Unit := do
  let fresh ← Routine.reads fun r =>
    (r.levelFlags row).only (proved ||| provedMerged ||| provedNew) provedNew
  if fresh then
    discard <| Routine.addLevelFlags row proved
    let t ← Routine.factOf row
    let more ← if c.mode.equality.enabled then equate c task row t else pure true
    if more then
      c.rules.applyToPositive (c.provingView (forwardFilter c task row)) row t task.scope
        fun _ head => prove c task head

/-- Proves what can be proved without a search for an examined fact, and whatever follows from it.
The answer is whether the fact is proved then. -/
def saturate (row : RowIndex) (t : Triple) : Routine Bool := do
  queueObvious c task row t
  if !(← Routine.reads fun r => r.update.proved.canDequeue) then pure false
  else
    Routine.drain (c.whileRunning (Routine.dequeue .proved)) (fun row _ => forward c task row)
      task.budget ()
    if c.mode.equality.enabled then allProved c row t else pure true

/-- The fact that a lead on `t` yields, unless it is of no use. -/
def follow (t : Triple) : Lead → Routine (Option (RowIndex × Triple))
  | .mention row => do
    let useful ← Routine.reads fun r =>
      !(r.flags row).any Flag.Update.disproved && Standing.before (r.table.status row) &&
        !reflexiveProved t.subject r
    if useful then
      let u ← Routine.factOf row
      pure (some (row, u))
    else pure none
  | .replacement id => do
    if ← Routine.reads fun r => r.steady.isSingleton id then pure none
    else if !(← Routine.checkReflexivity id 2) then pure none
    else
      let row ← Routine.rowOf (.reflexive id)
      if (← Routine.reads fun r => r.flags row).any Flag.Update.disproved then pure none
      else pure (some (row, .reflexive id))
  | .premise row u => pure (some (row, u))

/-- The facts that the rule of a head needs to derive a fact, if it needs a search for them. -/
def premises (t : Triple) (h : HeadRef) : Routine (List Lead) := do
  c.announce (.backwardRecursiveRuleStarted h.rule)
  let supports ← c.rules.supportingInstances (c.view supports) h t
  pure <| supports.flatten.filterMap fun m =>
    if c.rules.isSupporting h.rule m.literal then some (.premise m.row m.fact) else none

/-- The head atoms of recursive rules of the level that derive a fact and have constants at a set of
positions. -/
def recursiveHeads (t : Triple) (pattern : Nat) (r : Run) : List HeadRef :=
  (c.rules.headsWith (c.steady? r) t pattern).filter fun h =>
    match c.rules.rules[h.rule]? with
    | some i => i.recursive && task.scope.includes i.rule.level
    | none => false

/-- What a source for a fact yields. -/
def consult (t : Triple) (r : Run) : Source → List HeadRef × List Lead
  | .mentions p => ([], (r.table.rowsAt t.subject p).map .mention)
  | .replacements => ([], t.toList.map .replacement)
  | .rules pattern => (recursiveHeads c task t pattern r, [])

/-- Whether a fact is to be examined: no search for it has failed, and it was not examined at this
level. It counts as examined from now on. -/
def takeUp (row : RowIndex) : Routine Bool := do
  if ← Routine.reads fun r => r.isDisproved row then pure false
  else Routine.addLevelFlags row Flag.Level.checked

/-- Announces that there is no need to examine a fact. -/
def skip (t : Triple) : Routine Unit := do
  c.announce (.checkingStarted t true)
  c.announce (.checkingFinished t)

/-- Starts to examine a fact. -/
def begin (row : RowIndex) (t : Triple) : Routine Unit := do
  c.announce (.checkingStarted t false)
  modify fun r => { r with checked := r.checked.push row }
  let proved ← saturate c task row t
  let sources := Source.all c.mode.equality.enabled (c.rules.hasRecursive task.scope) t
  let e : Examination := { row, fact := t, proved, sources }
  modify fun r => { r with examinations := e :: r.examinations }

/-- How the innermost examination goes on. -/
inductive Turn where
  /-- Another fact has to be examined first. -/
  | descend (row : RowIndex) (fact : Triple)
  /-- It is over. -/
  | close (proved : Bool)
  deriving DecidableEq, Repr, Inhabited

/-- Sets the innermost examination to what is left of it. -/
def keep (e : Examination) : Routine Unit :=
  modify fun r => { r with examinations := e :: r.examinations.tail }

/-- Looks for a proof, until that takes the examination of another fact. -/
def explore (e : Examination) : Routine Turn :=
  match e with
  | ⟨row, t, proved, lead :: leads, heads, sources⟩ => do
    keep ⟨row, t, proved, leads, heads, sources⟩
    match ← follow t lead with
    | none => explore ⟨row, t, proved, leads, heads, sources⟩
    | some (next, u) =>
      if ← takeUp next then pure (.descend next u)
      else
        skip c u
        if ← allProved c row t then pure (.close true)
        else explore ⟨row, t, proved, leads, heads, sources⟩
  | ⟨row, t, proved, [], head :: heads, sources⟩ => do
    keep ⟨row, t, proved, [], heads, sources⟩
    let leads ← premises c t head
    explore ⟨row, t, proved, leads, heads, sources⟩
  | ⟨row, t, proved, [], [], source :: sources⟩ => do
    let (heads, leads) ← Routine.reads fun r => consult c task t r source
    explore ⟨row, t, proved, leads, heads, sources⟩
  | ⟨_, _, _, [], [], []⟩ => pure (.close false)
termination_by (e.sources.length, e.heads.length, e.leads.length)

/-- Goes on with the innermost examination, for which another one may have proved the fact. -/
def resume : Routine Unit := do
  match ← Routine.reads Run.examinations with
  | [] => pure ()
  | e :: _ => if ← allProved c e.row e.fact then keep { e with proved := true }

/-- Goes on until nothing is left under examination. The answer is whether the fact of the last
examination is proved, or `proved` if there is none. Every fact is examined once, so twice their
number is enough for `fuel`. -/
def conclude : Nat → Bool → Routine Bool
  | 0, _ => throw .exhausted
  | fuel + 1, proved => do
    match ← Routine.reads Run.examinations with
    | [] => pure proved
    | e :: outer =>
      match ← if e.proved then pure (.close true) else explore c task e with
      | .descend row t =>
        begin c task row t
        conclude fuel proved
      | .close proved =>
        modify fun r => { r with examinations := outer }
        c.announce (.checkingFinished e.fact)
        resume c
        conclude fuel proved

/-- Marks as disproved what a check examined in vain. -/
def markDisproved : Routine Unit := do
  (← Routine.reads fun r => r.checked).toList.forM fun row => do
    if ← noneProved c row then
      if ← Routine.addFlags row Flag.Update.disproved then
        c.announceRow row .disproved
  modify fun r => { r with checked := #[] }

/-- Whether a fact is proved. -/
def check (row : RowIndex) (t : Triple) : Routine Bool := do
  modify fun r => { r with checks := r.checks + 1, checked := #[] }
  let known ←
    if ← takeUp row then
      begin c task row t
      pure false
    else
      skip c t
      let interrupted ← Routine.reads fun r => !r.examinations.isEmpty
      if interrupted then pure false else allProved c row t
  let waiting ← Routine.reads fun r => r.examinations.length
  let proved ← conclude c task (2 * task.budget + waiting + 1) known
  markDisproved c
  pure proved

/-- The task of a level, before its first check. -/
def start (level : Option Nat) : Routine DeletionTask := do
  let task ← DeletionTask.start c level 3
  modify fun r => { r with checks := 0, examinations := [] }
  pure task

/-- Whether each of some facts is proved, or the error of its check, and how many checks that
took. -/
def checkAll (level : Option Nat) (facts : List Triple) :
    Routine (List (Except Error Bool) × Nat) := do
  let task ← start c level
  let kept ← facts.mapM fun t => do
    let row ← Routine.reads fun r => (r.table.index? t).getD 0
    Routine.attempt (check c task row t)
  let checks ← Routine.reads fun r => r.checks
  pure (kept, checks)

/-- Deletes the facts of a level that have lost their support. The answer is how many facts were
checked. -/
def delete (level : Option Nat) : Routine Nat := do
  c.announce (.taskStarted .deletion level 1)
  let task ← start c level
  task.run c (check c task)
  let checks ← Routine.reads fun r => r.checks
  Routine.note (.checksFinished level checks)
  c.announce (.taskFinished .deletion level)
  pure checks

end Search

end Entail
