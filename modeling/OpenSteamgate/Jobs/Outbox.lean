import Mathlib.Logic.Relation
import OpenSteamgate.Jobs.Ledger

namespace OpenSteamgate.Jobs

structure Parent where
  intentId : Id
  sourceDb : Text
  mandt : Text
  sysid : Text
  jobname : Text
  jobcount : Text
  owner : Text
  program : Text
  generation : Text
  stepCount : Nat := 0
  predJobname : Text := []
  predJobcount : Text := []
  predIntentId : Text := []
  sourceInstance : Text := []
  eventId : Text := []
  eventParam : Text := []
  waitSeq : Nat := 0
  tailEventId : Text := []
  tailEventParam : Text := []
  schedule : Option (Option Schedule) := some none
  deriving DecidableEq

structure Site where
  db : Text
  client : Text
  sysid : Text
  inst : Option Text

def Parent.legacy (row : Parent) (steps : List StepSpec) : Bool := row.stepCount = 0 && steps = []

def Parent.predecessor (row : Parent) : Option (Option AfterEvent) :=
  if row.predJobname = [] ∧ row.predJobcount = [] ∧ row.predIntentId = [] then some none
  else if row.predJobname = [] ∨ row.predJobcount = [] ∨ row.predIntentId = [] then none
  else some (some ⟨row.predJobname,row.predJobcount,some row.predIntentId⟩)

def maxSafeInteger : Nat := 2 ^ 53 - 1

def Parent.condition (row : Parent) (after : Option AfterEvent) : Option (Option Awaited) :=
  if row.eventId = [] ∧ row.eventParam = [] ∧ row.waitSeq = 0 then some none
  else if row.eventId = [] ∨ row.sourceInstance = [] ∨ after.isSome ∨ maxSafeInteger < row.waitSeq ∨
    row.waitSeq < 1 then none
  else some (some ⟨row.eventId,row.eventParam,row.sourceInstance,row.waitSeq⟩)

def Parent.tail (row : Parent) : Option (Option TailEvent) :=
  if row.tailEventId = [] ∧ row.tailEventParam = [] then some none
  else if row.tailEventId = [] ∨ row.sourceInstance = [] then none
  else some (some ⟨row.tailEventId,row.tailEventParam,row.sourceInstance⟩)

def Parent.ordered (row : Parent) (steps : List StepSpec) : Bool :=
  1 ≤ row.stepCount && row.stepCount ≤ 16 && steps.length = row.stepCount &&
    steps.map StepSpec.number = List.range' 1 steps.length &&
    steps.head?.map StepSpec.program = some row.program

def Site.intentOf (site : Site) (row : Parent) (steps : List StepSpec) : Option Intent := do
  let after ← row.predecessor
  if row.sysid ≠ site.sysid ∨ row.sourceDb ≠ site.db ∨ row.mandt ≠ site.client then none
  else if row.sourceInstance ≠ [] ∧ site.inst ≠ some row.sourceInstance then none
  else do
    let named ← row.condition after
    let schedule ← row.schedule
    if schedule.isSome ∧ (after.isSome ∨ named.isSome) then none
    else do
      let tail ← row.tail
      if !row.legacy steps && !row.ordered steps then none
      else
        some
          {intentId := row.intentId,sourceDb := row.sourceDb,client := row.mandt,sysid := row.sysid
           jobname := row.jobname,jobcount := row.jobcount,owner := row.owner,program := row.program
           generation := row.generation,sourceInstance := site.inst
           steps := if row.legacy steps then none else some steps
           afterEvent := after,namedEvent := named,tailEvent := tail,schedule := schedule}

theorem intentOf_id {site : Site} {row : Parent} {steps : List StepSpec} {intent : Intent}
    (hintent : site.intentOf row steps = some intent) : intent.intentId = row.intentId := by
  rw [Site.intentOf] at hintent
  obtain ⟨after,-,hintent⟩ := Option.bind_eq_some_iff.mp hintent
  split at hintent
  · exact nomatch hintent
  split at hintent
  · exact nomatch hintent
  obtain ⟨named,-,hintent⟩ := Option.bind_eq_some_iff.mp hintent
  obtain ⟨schedule,-,hintent⟩ := Option.bind_eq_some_iff.mp hintent
  split at hintent
  · exact nomatch hintent
  obtain ⟨tail,-,hintent⟩ := Option.bind_eq_some_iff.mp hintent
  split at hintent
  · exact nomatch hintent
  · rw [← Option.some.inj hintent]

def Parent.sameAs (row : Parent) (steps : List StepSpec) (row' : Parent) : Bool :=
  {row' with stepCount := if row.legacy steps then row.stepCount else row'.stepCount} = row

def Parent.waits (row : Parent) : Bool :=
  match row.schedule with
  | none => false
  | some schedule => schedule.isSome || row.eventId ≠ [] || row.predJobname ≠ []

structure Business where
  outbox : Table Id Parent Parent.intentId := .empty
  steps : Id → List StepSpec := fun _ => []

def Business.dropRow (view : Business) (id : Id) : Business := {view with outbox := view.outbox.erase id}

def isChild (step row : StepSpec) : Bool := row.number = step.number && row.program = step.program

def Business.dropStep (view : Business) (id : Id) (step : StepSpec) : Business :=
  {view with steps := Function.update view.steps id ((view.steps id).filter fun row => !isChild step row)}

def Business.dropSteps (view : Business) (id : Id) : Business :=
  {view with steps := Function.update view.steps id []}

inductive Process
  | idle
  | draining (rows : List (Parent × List StepSpec))
  | claimed (id : Id) (intent : Intent) (more : List StepSpec) (rows : List (Parent × List StepSpec))
      (view : Business)
  | imported (id : Id) (rows : List (Parent × List StepSpec)) (view : Business)
  | caller (closed gone : List Id) (view : Business)

def Process.writes : Process → Bool
  | .idle | .draining _ => false
  | .claimed _ _ _ _ _ | .imported _ _ _ | .caller _ _ _ => true

structure System (W : Type) where
  business : Business := {}
  store : Store := {}
  process : W → Process := fun _ => .idle
  released : List Id := []
  dropped : List Id := []
  booked : List Id := []

variable {W : Type} [DecidableEq W]

def System.free (σ : System W) : Prop := ∀ w,(σ.process w).writes = false

def System.set (σ : System W) (w : W) (p : Process) : System W :=
  {σ with process := Function.update σ.process w p}

inductive Move (h : Platform) (site : Site) (mine : Id → Prop) : System W → System W → Prop
  | read {σ w rows} : σ.process w = .idle →
      rows.Perm ((σ.business.outbox.rows.filter fun row => row.mandt = site.client).map fun row =>
        (row,σ.business.steps row.intentId)) →
      Move h site mine σ (σ.set w (.draining rows))
  | claim {σ w row steps rows intent row'} : σ.process w = .draining ((row,steps) :: rows) →
      site.intentOf row steps = some intent → σ.free →
      σ.business.outbox.find row.intentId = some row' → row.sameAs steps row' = true →
      Move h site mine σ (σ.set w (.claimed row.intentId intent (intent.steps.getD []) rows
        (σ.business.dropRow row.intentId)))
  | pass {σ w row steps rows intent} : σ.process w = .draining ((row,steps) :: rows) →
      site.intentOf row steps = some intent → σ.business.outbox.find row.intentId = none →
      Move h site mine σ (σ.set w (.draining rows))
  | drop {σ w id intent step more rows view} : σ.process w = .claimed id intent (step :: more) rows view →
      (view.steps id).countP (isChild step) = 1 →
      Move h site mine σ (σ.set w (.claimed id intent more rows (view.dropStep id step)))
  | intake {σ w id intent rows view now answer s'} : σ.process w = .claimed id intent [] rows view →
      σ.store.importIntent h intent now = .ok (answer,s') →
      Move h site mine σ {σ.set w (.imported id rows view) with
        store := s',booked := if answer = .imported then σ.booked ++ [id] else σ.booked}
  | commit {σ w id rows view} : σ.process w = .imported id rows view →
      Move h site mine σ {σ.set w (.draining rows) with business := view}
  | write {σ w} : σ.process w = .idle → σ.free → Move h site mine σ (σ.set w (.caller [] [] σ.business))
  | close {σ w closed gone view row steps outbox} : σ.process w = .caller closed gone view →
      mine row.intentId → h.lower row.intentId = row.intentId → row.intentId ∉ σ.released →
      row.intentId ∉ closed → view.outbox.insert row = some outbox →
      Move h site mine σ (σ.set w (.caller (closed ++ [row.intentId]) gone
        ⟨outbox,Function.update view.steps row.intentId steps⟩))
  | deleteRun {σ w closed gone view id s'} : σ.process w = .caller closed gone view →
      (σ.store.imports.find id).isSome = true → σ.store.deleteJob id = .ok (.deleted,s') →
      Move h site mine σ {σ.set w (.caller closed gone ((view.dropRow id).dropSteps id)) with store := s'}
  | deleteRow {σ w closed gone view row} : σ.process w = .caller closed gone view →
      view.outbox.find row.intentId = some row → σ.store.imports.find row.intentId = none →
      row.waits = true →
      Move h site mine σ (σ.set w (.caller closed (gone ++ [row.intentId])
        ((view.dropRow row.intentId).dropSteps row.intentId)))
  | commitWork {σ w closed gone view} : σ.process w = .caller closed gone view →
      Move h site mine σ {σ.set w .idle with
        business := view,released := σ.released ++ closed,dropped := σ.dropped ++ gone}
  | stop {σ w} : Move h site mine σ (σ.set w .idle)
  | other {σ call answer s'} : Step h σ.store call answer s' → (∀ id,mine id → call.creates h ≠ some id) →
      Move h site mine σ {σ with store := s'}

def Happens (h : Platform) (site : Site) (mine : Id → Prop) (σ : System W) : Prop :=
  Relation.ReflTransGen (Move h site mine) {} σ

section converging

variable {h : Platform} {site : Site} {mine : Id → Prop} {σ σ' : System W} {w : W} {p : Process}
  {released dropped booked : List Id} {view view' : Business} {id : Id}

structure Accounts (released dropped booked : List Id) (view : Business) : Prop where
  known : ∀ id,(view.outbox.find id).isSome = true → id ∈ released
  covered : ∀ id ∈ released,(view.outbox.find id).isSome = true ∨ id ∈ booked ∨ id ∈ dropped
  gone : ∀ id ∈ dropped,view.outbox.find id = none ∧ id ∉ booked ∧ id ∈ released

def Lacks (id : Id) (view business : Business) : Prop :=
  ∀ l,view.outbox.find l = if l = id then none else business.outbox.find l

def Fits (h : Platform) (mine : Id → Prop) (σ : System W) : Process → Prop
  | .idle | .draining _ => True
  | .claimed id intent _ _ view => intent.intentId = id ∧
      (σ.business.outbox.find id).isSome = true ∧ Lacks id view σ.business
  | .imported id _ view => id ∈ σ.booked ∧ Lacks id view σ.business
  | .caller closed gone view => (∀ id ∈ closed,mine id ∧ h.lower id = id) ∧
      Accounts (σ.released ++ closed) (σ.dropped ++ gone) σ.booked view

structure Converging (h : Platform) (mine : Id → Prop) (σ : System W) : Prop where
  ours : ∀ id ∈ σ.released,mine id ∧ h.lower id = id
  accounts : Accounts σ.released σ.dropped σ.booked σ.business
  imports : ∀ id,mine id → ((σ.store.imports.find id).isSome = true ↔ id ∈ σ.booked)
  runs : ∀ id,mine id → ((σ.store.runs.find id).isSome = true ↔ id ∈ σ.booked)
  once : σ.booked.Nodup
  single : ∀ w w',(σ.process w).writes = true → (σ.process w').writes = true → w = w'
  fits : ∀ w,Fits h mine σ (σ.process w)

omit [DecidableEq W] in
theorem Fits.quiet (hp : p.writes = false) : Fits h mine σ p := by
  cases p with
  | idle => trivial
  | draining rows => trivial
  | claimed id intent more rows view => exact nomatch hp
  | imported id rows view => exact nomatch hp
  | caller closed gone view => exact nomatch hp

omit [DecidableEq W] in
theorem Converging.alone (hσ : Converging h mine σ) (hw : (σ.process w).writes = true) (w' : W)
    (hne : w' ≠ w) : (σ.process w').writes = false := by
  rw [← Bool.not_eq_true]
  exact fun hw' => hne (hσ.single w' w hw' hw)

theorem set_self (σ : System W) (w : W) (p : Process) : (σ.set w p).process w = p :=
  Function.update_self ..

theorem set_other {w' : W} (hne : w' ≠ w) : (σ.set w p).process w' = σ.process w' :=
  Function.update_of_ne hne ..

theorem set_single (hothers : ∀ w',w' ≠ w → (σ.process w').writes = false) (a b : W)
    (ha : ((σ.set w p).process a).writes = true) (hb : ((σ.set w p).process b).writes = true) :
    a = b := by
  have hmust : ∀ c,((σ.set w p).process c).writes = true → c = w := by
    intro c hc
    by_contra hne
    rw [set_other hne,hothers c hne] at hc
    exact nomatch hc
  rw [hmust a ha,hmust b hb]

theorem set_fits (hothers : ∀ w',w' ≠ w → (σ.process w').writes = false) (hp : Fits h mine σ' p) (a : W) :
    Fits h mine σ' ((σ.set w p).process a) := by
  by_cases ha : a = w
  · subst ha
    rw [set_self]
    exact hp
  · rw [set_other ha]
    exact .quiet (hothers a ha)

theorem Converging.quiet (hσ : Converging h mine σ) (w : W) (hp : p.writes = false) :
    Converging h mine (σ.set w p) := by
  have hprocess : ∀ a,((σ.set w p).process a).writes = true → ((σ.set w p).process a) = σ.process a := by
    intro a ha
    by_cases haw : a = w
    · subst haw
      rw [set_self,hp] at ha
      exact nomatch ha
    · exact set_other haw
  refine ⟨hσ.ours,hσ.accounts,hσ.imports,hσ.runs,hσ.once,fun a b ha hb => ?_,fun a => ?_⟩
  · exact hσ.single a b (hprocess a ha ▸ ha) (hprocess b hb ▸ hb)
  · cases ha : ((σ.set w p).process a).writes with
    | false => exact .quiet ha
    | true =>
      rw [hprocess a ha]
      exact hσ.fits a

theorem Converging.goes (hσ : Converging h mine σ)
    (hothers : ∀ w',w' ≠ w → (σ.process w').writes = false) (hp : Fits h mine σ p) :
    Converging h mine (σ.set w p) :=
  ⟨hσ.ours,hσ.accounts,hσ.imports,hσ.runs,hσ.once,set_single hothers,set_fits hothers hp⟩

theorem Accounts.more (haccounts : Accounts released dropped booked view) {booked' : List Id}
    (hmore : ∀ l ∈ booked,l ∈ booked') (hnew : ∀ l ∈ booked',l ∈ booked ∨ l ∉ dropped) :
    Accounts released dropped booked' view := by
  refine ⟨haccounts.known,fun l hl => ?_,fun l hl => ?_⟩
  · rcases haccounts.covered l hl with hrow | hbooked | hdropped
    · exact .inl hrow
    · exact .inr (.inl (hmore l hbooked))
    · exact .inr (.inr hdropped)
  · obtain ⟨hnone,hbooked,hreleased⟩ := haccounts.gone l hl
    refine ⟨hnone,fun hin => ?_,hreleased⟩
    rcases hnew l hin with hold | hother
    · exact hbooked hold
    · exact hother hl

theorem Accounts.without (haccounts : Accounts released dropped booked view) (hlacks : Lacks id view' view)
    (hid : id ∈ released → id ∈ booked ∨ id ∈ dropped) : Accounts released dropped booked view' := by
  refine ⟨fun l hl => ?_,fun l hl => ?_,fun l hl => ?_⟩
  · rw [hlacks] at hl
    split at hl
    · cases hl
    · exact haccounts.known l hl
  · rw [hlacks]
    split
    · rename_i hlid
      subst hlid
      exact .inr (hid hl)
    · exact haccounts.covered l hl
  · obtain ⟨hnone,hrest⟩ := haccounts.gone l hl
    refine ⟨?_,hrest⟩
    rw [hlacks,hnone,ite_self]

theorem lacks_dropRow (view : Business) (id : Id) : Lacks id (view.dropRow id) view :=
  Table.find_erase view.outbox id

omit [DecidableEq W] in
theorem intake_booked (hσ : Converging h mine σ) {intent : Intent} {now : Stamp} {answer : Answer}
    {s' : Store} (hmine : mine id) (hlower : h.lower intent.intentId = id)
    (hcall : σ.store.importIntent h intent now = .ok (answer,s')) :
    let booked := if answer = .imported then σ.booked ++ [id] else σ.booked
    id ∈ booked ∧ booked.Nodup ∧ ∀ l,mine l → ((s'.imports.find l).isSome = true ↔ l ∈ booked) ∧
      ((s'.runs.find l).isSome = true ↔ l ∈ booked) := by
  have heffect := importIntent_effect hcall
  have hothers := fun l (hl : l ≠ id) => effect_others l heffect fun hcreates =>
    hl (Option.some.inj (hcreates.symm.trans (congrArg some hlower)))
  obtain ⟨c,hcheck⟩ := importIntent_check hcall
  have hid : c.id = id := (check_id hcheck).trans hlower
  intro booked
  rcases importIntent_answer hcheck hcall with rfl | ⟨rfl,rfl,hold⟩
  · obtain ⟨hcreated,hledger⟩ := effect_imported heffect hcheck
    have hnone : σ.store.imports.find id = none := hid ▸ (Table.insert_some hledger).1
    have hnew : id ∉ σ.booked := fun hin => by
      have hsome := (hσ.imports id hmine).mpr hin
      rw [hnone] at hsome
      exact nomatch hsome
    have hbooked : booked = σ.booked ++ [id] := if_pos rfl
    rw [hbooked]
    refine ⟨List.mem_concat_self,(List.nodup_append_comm.mp (List.nodup_cons.mpr ⟨hnew,hσ.once⟩)),
      fun l hl => ?_⟩
    by_cases hlid : l = id
    · subst hlid
      have himport := (Table.find_insert hledger c.id).trans (if_pos rfl)
      have hrun := (hcreated.runs c.id).trans (if_pos rfl)
      rw [← hid,himport,hrun]
      exact ⟨iff_of_true rfl List.mem_concat_self,iff_of_true rfl List.mem_concat_self⟩
    · have hin : l ∈ σ.booked ++ [id] ↔ l ∈ σ.booked := by simp [hlid]
      rw [(hothers l hlid).1,(hothers l hlid).2,hin]
      exact ⟨hσ.imports l hl,hσ.runs l hl⟩
  · have hbooked : booked = σ.booked := if_neg nofun
    rw [hbooked]
    refine ⟨(hσ.imports id hmine).mp ?_,hσ.once,fun l hl => ⟨hσ.imports l hl,hσ.runs l hl⟩⟩
    rw [← hid,hold]

theorem move_converging (hσ : Converging h mine σ) (hmove : Move h site mine σ σ') :
    Converging h mine σ' := by
  cases hmove with
  | read hw hrows => exact hσ.quiet _ rfl
  | pass hw hintent hnone => exact hσ.quiet _ rfl
  | stop => exact hσ.quiet _ rfl
  | @claim w row steps rows intent row' hw hintent hfree hfound hsame =>
    refine hσ.goes (fun w' _ => hfree w') ⟨intentOf_id hintent,?_,lacks_dropRow _ _⟩
    rw [hfound]
    rfl
  | @drop w id intent step more rows view hw hcount =>
    have hfits := hσ.fits w
    rw [hw] at hfits
    exact hσ.goes (hσ.alone (by rw [hw]; rfl)) hfits
  | @intake w id intent rows view now answer s' hw hcall =>
    have hfits := hσ.fits w
    rw [hw] at hfits
    obtain ⟨hintent,hrow,hlacks⟩ := hfits
    obtain ⟨hmine,hlower⟩ := hσ.ours id (hσ.accounts.known id hrow)
    obtain ⟨hin,hnodup,hledger⟩ := intake_booked hσ hmine (hintent.symm ▸ hlower) hcall
    have hothers := hσ.alone (w := w) (by rw [hw]; rfl)
    refine ⟨hσ.ours,hσ.accounts.more (fun l hl => ?_) (fun l hl => ?_),fun l hl => (hledger l hl).1,
      fun l hl => (hledger l hl).2,hnodup,set_single hothers,set_fits hothers ⟨hin,hlacks⟩⟩
    · split
      · exact List.mem_append_left _ hl
      · exact hl
    · split at hl
      · rcases List.mem_append.mp hl with hl | hl
        · exact .inl hl
        · refine .inr fun hdropped => ?_
          rw [List.mem_singleton.mp hl] at hdropped
          rw [(hσ.accounts.gone id hdropped).1] at hrow
          cases hrow
      · exact .inl hl
  | @commit w id rows view hw =>
    have hfits := hσ.fits w
    rw [hw] at hfits
    have hothers := hσ.alone (w := w) (by rw [hw]; rfl)
    exact ⟨hσ.ours,hσ.accounts.without hfits.2 fun _ => .inl hfits.1,hσ.imports,hσ.runs,hσ.once,
      set_single hothers,set_fits hothers trivial⟩
  | @write w hw hfree =>
    refine hσ.goes (fun w' _ => hfree w') ⟨List.forall_mem_nil _,?_⟩
    rw [List.append_nil,List.append_nil]
    exact hσ.accounts
  | @close w closed gone view row steps outbox hw hmine hlower hnew hfresh hinsert =>
    have hfits := hσ.fits w
    rw [hw] at hfits
    obtain ⟨hours,haccounts⟩ := hfits
    have hfind := Table.find_insert hinsert
    refine hσ.goes (hσ.alone (by rw [hw]; rfl)) ⟨fun l hl => ?_,fun l hl => ?_,fun l hl => ?_,
      fun l hl => ?_⟩
    · rcases List.mem_append.mp hl with hl | hl
      · exact hours l hl
      · rw [List.mem_singleton.mp hl]
        exact ⟨hmine,hlower⟩
    · rw [hfind] at hl
      rw [← List.append_assoc]
      split at hl
      · rename_i hid
        rw [hid]
        exact List.mem_concat_self
      · exact List.mem_append_left _ (haccounts.known l hl)
    · rw [← List.append_assoc] at hl
      rw [hfind]
      split
      · exact .inl rfl
      · rename_i hid
        rcases List.mem_append.mp hl with hl | hl
        · exact haccounts.covered l hl
        · exact absurd (List.mem_singleton.mp hl) hid
    · obtain ⟨hnone,hbooked,hin⟩ := haccounts.gone l hl
      have hid : l ≠ row.intentId := by
        rintro rfl
        rcases List.mem_append.mp hin with hin | hin
        · exact hnew hin
        · exact hfresh hin
      rw [hfind,if_neg hid,← List.append_assoc]
      exact ⟨hnone,hbooked,List.mem_append_left _ hin⟩
  | @deleteRun w closed gone view id s' hw himported hcall =>
    have hfits := hσ.fits w
    rw [hw] at hfits
    obtain ⟨hours,haccounts⟩ := hfits
    have hothers := hσ.alone (w := w) (by rw [hw]; rfl)
    have hstays := fun l => effect_others l (deleteJob_effect (h := h) hcall) (by rintro ⟨⟩)
    refine ⟨hσ.ours,hσ.accounts,fun l hl => ?_,fun l hl => ?_,hσ.once,set_single hothers,
      set_fits hothers ⟨hours,haccounts.without (lacks_dropRow view id) fun hid => .inl ?_⟩⟩
    · rw [(hstays l).2]
      exact hσ.imports l hl
    · rw [(hstays l).1]
      exact hσ.runs l hl
    · have hmine : mine id := by
        rcases List.mem_append.mp hid with hid | hid
        · exact (hσ.ours id hid).1
        · exact (hours id hid).1
      exact (hσ.imports id hmine).mp himported
  | @deleteRow w closed gone view row hw hrow hnone hwaits =>
    have hfits := hσ.fits w
    rw [hw] at hfits
    obtain ⟨hours,haccounts⟩ := hfits
    have hknown := haccounts.known row.intentId (by rw [hrow]; rfl)
    have hmine : mine row.intentId := by
      rcases List.mem_append.mp hknown with hid | hid
      · exact (hσ.ours _ hid).1
      · exact (hours _ hid).1
    have hfresh : row.intentId ∉ σ.booked := fun hin => by
      have hsome := (hσ.imports _ hmine).mpr hin
      rw [hnone] at hsome
      cases hsome
    have hlacks := lacks_dropRow view row.intentId
    refine hσ.goes (hσ.alone (by rw [hw]; rfl)) ⟨hours,fun l hl => ?_,fun l hl => ?_,fun l hl => ?_⟩
    · change ((view.dropRow row.intentId).outbox.find l).isSome = true at hl
      rw [hlacks] at hl
      split at hl
      · cases hl
      · exact haccounts.known l hl
    · change ((view.dropRow row.intentId).outbox.find l).isSome = true ∨ _
      rw [hlacks,← List.append_assoc]
      split
      · rename_i hid
        rw [hid]
        exact .inr (.inr List.mem_concat_self)
      · rcases haccounts.covered l hl with hin | hin | hin
        · exact .inl hin
        · exact .inr (.inl hin)
        · exact .inr (.inr (List.mem_append_left _ hin))
    · change (view.dropRow row.intentId).outbox.find l = none ∧ _
      rw [hlacks]
      rw [← List.append_assoc] at hl
      rcases List.mem_append.mp hl with hl | hl
      · obtain ⟨hfind,hrest⟩ := haccounts.gone l hl
        rw [hfind,ite_self]
        exact ⟨rfl,hrest⟩
      · rw [List.mem_singleton.mp hl,if_pos rfl]
        exact ⟨rfl,hfresh,hknown⟩
  | @commitWork w closed gone view hw =>
    have hfits := hσ.fits w
    rw [hw] at hfits
    obtain ⟨hours,haccounts⟩ := hfits
    have hothers := hσ.alone (w := w) (by rw [hw]; rfl)
    refine ⟨fun l hl => ?_,haccounts,hσ.imports,hσ.runs,hσ.once,set_single hothers,set_fits hothers trivial⟩
    rcases List.mem_append.mp hl with hl | hl
    · exact hσ.ours l hl
    · exact hours l hl
  | @other call answer s' hstep hcall =>
    have hstays := fun l hl => effect_others l (step_effect hstep) (hcall l hl)
    refine ⟨hσ.ours,hσ.accounts,fun l hl => ?_,fun l hl => ?_,hσ.once,hσ.single,hσ.fits⟩
    · rw [(hstays l hl).2]
      exact hσ.imports l hl
    · rw [(hstays l hl).1]
      exact hσ.runs l hl

theorem happens_converging (hσ : Happens h site mine σ) : Converging h mine σ := by
  induction hσ with
  | refl =>
    have hnone : ∀ l,¬(none : Option Run).isSome = true ∧ l ∉ ([] : List Id) := fun l => ⟨nofun,nofun⟩
    refine ⟨List.forall_mem_nil _,⟨fun l hl => ?_,List.forall_mem_nil _,List.forall_mem_nil _⟩,
      fun l _ => iff_of_false (hnone l).1 (hnone l).2,fun l _ => iff_of_false (hnone l).1 (hnone l).2,
      List.nodup_nil,fun a b ha => ?_,fun _ => trivial⟩
    · exact nomatch hl
    · exact nomatch ha
  | tail _ hmove ih => exact move_converging ih hmove

omit [DecidableEq W] in
theorem Converging.settled (hσ : Converging h mine σ) (hempty : σ.business.outbox.rows = [])
    (hid : id ∈ σ.released) :
    (σ.store.runs.rows.countP fun r => r.id = id) = (if id ∈ σ.dropped then 0 else 1) ∧
      σ.booked.count id = if id ∈ σ.dropped then 0 else 1 := by
  have hruns := hσ.runs id (hσ.ours id hid).1
  rw [Table.countP_find]
  by_cases hdropped : id ∈ σ.dropped
  · rw [if_pos hdropped]
    have hnew := (hσ.accounts.gone id hdropped).2.1
    exact ⟨if_neg fun hrun => hnew (hruns.mp hrun),List.count_eq_zero_of_not_mem hnew⟩
  · rw [if_neg hdropped]
    have hbooked : id ∈ σ.booked := by
      rcases hσ.accounts.covered id hid with hrow | hbooked | hgone
      · rw [Table.find,hempty] at hrow
        cases hrow
      · exact hbooked
      · exact absurd hgone hdropped
    exact ⟨if_pos (hruns.mpr hbooked),List.count_eq_one_of_mem hσ.once hbooked⟩

end converging

theorem intents_once (h : Platform) (site : Site) (mine : Id → Prop) :
    (∀ {s s₁ s₂ : Store} {events : List Event} {intent : Intent} {c : Checked} {now : Stamp},
      check h intent = some c → s.importIntent h intent now = .ok (.imported,s₁) →
      Later h s₁ events s₂ →
      (∀ nowStamp,s₂.importIntent h intent nowStamp = .ok (.recorded c.id,s₂)) ∧
      (∃ r,s₂.runs.find c.id = some r ∧ Kept (Store.runOf c now (s.startsNow c)) r) ∧
      ∀ intent' nowStamp,h.lower intent'.intentId = c.id →
        (∀ c',check h intent' = some c' → Apart h c c') →
        s₂.importIntent h intent' nowStamp =
          match check h intent' with
          | none => .error .invalidIntent
          | some c' => if c' = c ∨ c = c'.former then .ok (.recorded c.id,s₂)
              else .error .changedAfterImport) ∧
    ∀ {W : Type} [DecidableEq W] {σ : System W},Happens h site mine σ →
      (∀ id,(σ.store.runs.rows.countP fun r => r.id = id) ≤ 1 ∧ σ.booked.count id ≤ 1) ∧
      (σ.business.outbox.rows = [] → ∀ id ∈ σ.released,
        (σ.store.runs.rows.countP fun r => r.id = id) = (if id ∈ σ.dropped then 0 else 1) ∧
          σ.booked.count id = if id ∈ σ.dropped then 0 else 1) := by
  refine ⟨fun {s s₁ s₂ events intent c now} hcheck hcall hlater => ⟨fun nowStamp => ?_,?_,
    fun intent' nowStamp hid hapart => ?_⟩,fun {W} _ {σ} hσ => ⟨fun id => ⟨?_,?_⟩,fun hempty id hid => ?_⟩⟩
  · exact (import_answers hcheck hcall hlater nowStamp).1
  · exact (import_answers hcheck hcall hlater 0).2
  · have hbooked := later_booked (imported_booked hcheck hcall) hlater
    cases hcheck' : check h intent' with
    | none =>
      rw [Store.importIntent,hcheck']
    | some c' =>
      exact import_booked hbooked (check_sound hcheck) hcheck' ((check_id hcheck').trans hid)
        (hapart c' hcheck')
  · rw [Table.countP_find]
    split
    · exact le_rfl
    · exact Nat.zero_le 1
  · exact List.nodup_iff_count_le_one.mp (happens_converging hσ).once id
  · exact (happens_converging hσ).settled hempty hid

def wholeIntent : Intent := {sampleIntent with steps := none}

def respelledIntent : Intent := {wholeIntent with program := "zfirst".toList}

def Answer.isImported : Except Fault (Answer × Store) → Bool
  | .ok (.imported,_) => true
  | _ => false

theorem isImported_ok {result : Except Fault (Answer × Store)} (hresult : Answer.isImported result = true) :
    ∃ s',result = .ok (.imported,s') := by
  unfold Answer.isImported at hresult
  split at hresult
  · exact ⟨_,rfl⟩
  · exact nomatch hresult

set_option maxRecDepth 10000 in
theorem respelled_recorded : ¬∀ (s s₁ : Store) (intent intent' : Intent) (now : Stamp),
    s.importIntent plain intent now = .ok (.imported,s₁) → intent'.intentId = intent.intentId →
      intent'.program ≠ intent.program → ∃ fault,s₁.importIntent plain intent' now = .error fault := by
  intro hraises
  obtain ⟨s₁,hcall⟩ := isImported_ok
    (show Answer.isImported (Store.importIntent plain {} wholeIntent 0) = true by decide +kernel)
  obtain ⟨c,hcheck⟩ := importIntent_check hcall
  have hrespelled : check plain respelledIntent = some c :=
    (show check plain respelledIntent = check plain wholeIntent by decide +kernel).trans hcheck
  obtain ⟨fault,hfault⟩ := hraises {} s₁ wholeIntent respelledIntent 0 hcall rfl (by decide)
  rw [import_same (imported_booked hcheck hcall) hrespelled] at hfault
  exact nomatch hfault

def sampleSite : Site := ⟨"/db".toList,"100".toList,"OSD".toList,none⟩

def sampleRow : Parent where
  intentId := sampleId
  sourceDb := "/db".toList
  mandt := "100".toList
  sysid := "OSD".toList
  jobname := "JOB".toList
  jobcount := "00000100".toList
  owner := "ANNA".toList
  program := "ZFIRST".toList
  generation := []
  stepCount := 2

def sampleSteps : List StepSpec := [⟨1,"ZFIRST".toList,[]⟩,⟨2,"ZSECOND".toList,[]⟩]

set_option maxRecDepth 10000 in
theorem intents_once_twice : ∃ σ : System Bool,Happens plain sampleSite (fun id => id = sampleId) σ ∧
    σ.business.outbox.rows = [] ∧ σ.released = [sampleId] ∧
    (σ.store.runs.rows.countP fun r => r.id = sampleId) = 1 := by
  obtain ⟨s',hcall⟩ := isImported_ok
    (show Answer.isImported (Store.importIntent plain {} sampleIntent 0) = true by decide +kernel)
  obtain ⟨c,hcheck⟩ := importIntent_check hcall
  obtain ⟨honce,hsystem⟩ := intents_once plain sampleSite fun id => id = sampleId
  have hagain := (honce hcheck hcall .nothing).1 1
  have hintent : sampleSite.intentOf sampleRow sampleSteps = some sampleIntent := by decide +kernel
  have hstart : Happens plain sampleSite (fun id => id = sampleId) ({} : System Bool) := .refl
  have hwrite := hstart.tail (.write (w := true) rfl fun _ => rfl)
  have hclose := hwrite.tail (@Move.close Bool _ plain sampleSite _ _ true [] [] _ sampleRow sampleSteps _ rfl
    rfl (by decide) (by decide) (by decide) rfl)
  have hcommit := hclose.tail (.commitWork (w := true) rfl)
  have hread := hcommit.tail (.read (w := false) rfl (List.Perm.refl _))
  have hread' := hread.tail (.read (w := true) rfl (List.Perm.refl _))
  -- the first worker stops between the import and its commit
  have hclaim := hread'.tail (@Move.claim Bool _ plain sampleSite _ _ false sampleRow sampleSteps []
    sampleIntent sampleRow rfl hintent (Bool.forall_bool.mpr ⟨rfl,rfl⟩) rfl (by decide +kernel))
  have hdrop := hclaim.tail (.drop (w := false) rfl (by decide +kernel))
  have hdrop' := hdrop.tail (.drop (w := false) rfl (by decide +kernel))
  have himport := hdrop'.tail (.intake (w := false) rfl hcall)
  have hstop := himport.tail (.stop (w := false))
  have hclaim' := hstop.tail (@Move.claim Bool _ plain sampleSite _ _ true sampleRow sampleSteps []
    sampleIntent sampleRow rfl hintent (Bool.forall_bool.mpr ⟨rfl,rfl⟩) rfl (by decide +kernel))
  have hdrop₂ := hclaim'.tail (.drop (w := true) rfl rfl)
  have hdrop₂' := hdrop₂.tail (.drop (w := true) rfl rfl)
  have himport' := hdrop₂'.tail (.intake (w := true) rfl hagain)
  have hdone := himport'.tail (.commit (w := true) rfl)
  exact ⟨_,hdone,rfl,rfl,((hsystem hdone).2 rfl sampleId (List.mem_singleton_self _)).1⟩

end OpenSteamgate.Jobs
