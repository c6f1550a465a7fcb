import OpenSteamgate.Jobs.Waits

namespace OpenSteamgate.Jobs

variable {h : Platform} {s s' : Store} {id : Id} {c c' : Checked} {intent : Intent} {now : Stamp}
  {call : Call} {answer : Answer}

section payload

theorem Range.json_inj {a b : Range} (heq : a.json = b.json) : a = b := by
  simp only [Range.json,Json.obj.injEq,List.cons.injEq,Prod.mk.injEq,Json.str.injEq,true_and,and_true] at heq
  obtain ⟨hsign,hoption,hlow,hhigh⟩ := heq
  cases a
  cases b
  simp only at hsign hoption hlow hhigh
  rw [hsign,hoption,hlow,hhigh]

theorem map_json {α : Type} {f : α → Json} (hf : ∀ {a b},f a = f b → a = b) {as bs : List α}
    (heq : as.map f = bs.map f) : as = bs := List.map_injective_iff.mpr (fun _ _ => hf) heq

theorem Field.json_inj {a b : Field} (heq : a.json = b.json) : a = b := by
  obtain ⟨name,value,ranges⟩ := a
  obtain ⟨name',value',ranges'⟩ := b
  cases ranges with
  | none =>
    cases ranges' with
    | none => simpa [Field.json] using heq
    | some ranges' => simp [Field.json] at heq
  | some ranges =>
    cases ranges' with
    | none => simp [Field.json] at heq
    | some ranges' =>
      simp only [Field.json,Json.obj.injEq,Option.map_some,Option.toList_some,List.cons_append,
        List.nil_append,List.cons.injEq,Prod.mk.injEq,Json.str.injEq,Json.arr.injEq,true_and,and_true] at heq
      obtain ⟨hname,hvalue,hranges⟩ := heq
      rw [hname,hvalue,map_json Range.json_inj hranges]

theorem StepSpec.json_inj {a b : StepSpec} (heq : a.json = b.json) : a = b := by
  obtain ⟨number,program,input⟩ := a
  obtain ⟨number',program',input'⟩ := b
  by_cases hinput : input = []
  · by_cases hinput' : input' = []
    · subst hinput hinput'
      simpa [StepSpec.json] using heq
    · simp [StepSpec.json,hinput,hinput'] at heq
  · by_cases hinput' : input' = []
    · simp [StepSpec.json,hinput,hinput'] at heq
    · simp only [StepSpec.json,Json.obj.injEq,if_neg hinput,if_neg hinput',List.cons_append,
        List.nil_append,List.cons.injEq,Prod.mk.injEq,Json.num.injEq,Json.str.injEq,Json.arr.injEq,
        true_and,and_true] at heq
      obtain ⟨hnumber,hprogram,hfields⟩ := heq
      rw [hnumber,hprogram,map_json Field.json_inj hfields]

theorem AfterEvent.json_inj {a b : AfterEvent} (heq : a.json = b.json) : a = b := by
  obtain ⟨jobname,jobcount,intentId⟩ := a
  obtain ⟨jobname',jobcount',intentId'⟩ := b
  cases intentId with
  | none =>
    cases intentId' with
    | none => simpa [AfterEvent.json] using heq
    | some pred' => simp [AfterEvent.json] at heq
  | some pred =>
    cases intentId' with
    | none => simp [AfterEvent.json] at heq
    | some pred' => simpa [AfterEvent.json] using heq

theorem Awaited.json_inj {a b : Awaited} (heq : a.json = b.json) : a = b := by
  cases a
  cases b
  simpa [Awaited.json] using heq

theorem TailEvent.json_inj {a b : TailEvent} (heq : a.json = b.json) : a = b := by
  cases a
  cases b
  simpa [TailEvent.json] using heq

theorem Schedule.json_inj {a b : Schedule} (heq : a.json = b.json) : a = b := by
  obtain ⟨start,last,⟨mins,hours,days,weeks⟩⟩ := a
  obtain ⟨start',last',⟨mins',hours',days',weeks'⟩⟩ := b
  cases last with
  | none =>
    cases last' with
    | none => simpa [Schedule.json] using heq
    | some stamp' => simp [Schedule.json] at heq
  | some stamp =>
    cases last' with
    | none => simp [Schedule.json] at heq
    | some stamp' => simpa [Schedule.json] using heq

structure Checked.Sound (c : Checked) : Prop where
  timed : c.schedule.isSome = true → c.after = none ∧ c.named = none
  single : c.named.isSome = true → c.after = none
  chained : c.schedule = none → c.chainPred = none

theorem check_sound (hcheck : check h intent = some c) : c.Sound := by
  refine ⟨check_timed hcheck,check_single hcheck,fun hschedule => ?_⟩
  have hall := hcheck
  rw [check] at hall
  obtain ⟨steps,-,hrest⟩ := Option.bind_eq_some_iff.mp hall
  split at hrest
  · rename_i hvalid
    obtain rfl := Option.some.inj hrest
    simp only [Bool.and_eq_true] at hvalid
    have htimed := hvalid.2
    dsimp only at hschedule
    rw [timedValid,Bool.and_eq_true] at htimed
    cases hchain : intent.chainPred with
    | none => rfl
    | some pred =>
      rw [hchain,hschedule] at htimed
      cases htimed.2
  · cases hrest

def scheduleMember (c : Checked) : List (String × Json) :=
  (c.schedule.map fun schedule => ("schedule",schedule.json)).toList

def chainMember (c : Checked) : List (String × Json) :=
  (c.chainPred.map fun pred => ("chainPred",Json.str pred)).toList

def Checked.members (c : Checked) : List (String × Json) :=
  c.base ++ stepsMember c.steps ++ afterMember c.after ++ namedMember c.named ++ scheduleMember c ++
    chainMember c ++ tailMember c.tail

theorem payload_members (hc : c.Sound) : ∃ versions : List (String × Json),
    (∀ member ∈ versions,member.1 = "version") ∧ c.payload = .obj (versions ++ c.members) := by
  have hversion : ∀ n,∀ member ∈ [version n],member.1 = "version" := by
    intro n member hmember
    rw [List.mem_singleton.mp hmember]
    rfl
  rw [Checked.payload,Checked.members]
  cases hschedule : c.schedule with
  | some schedule =>
    obtain ⟨hafter,hnamed⟩ := hc.timed (hschedule ▸ rfl)
    refine ⟨[version 7],hversion 7,?_⟩
    rw [hafter,hnamed]
    simp [scheduledPayload,scheduleMember,chainMember,afterMember,namedMember,hschedule]
  | none =>
    have hchain := hc.chained hschedule
    cases htail : c.tail with
    | some tail =>
      refine ⟨[version 6],hversion 6,?_⟩
      simp [scheduleMember,chainMember,hschedule,hchain]
    | none =>
      cases hnamed : c.named with
      | some named =>
        refine ⟨[version 5],hversion 5,?_⟩
        have hafter := hc.single (hnamed ▸ rfl)
        simp [scheduleMember,chainMember,hschedule,hchain,hafter,afterMember,tailMember]
      | none =>
        cases hafter : c.after with
        | some after =>
          refine ⟨[version (if after.intentId.isSome then 4 else 3)],hversion _,?_⟩
          simp [scheduleMember,chainMember,hschedule,hchain,afterMember,namedMember,tailMember]
        | none =>
          cases hsteps : c.steps with
          | some steps =>
            refine ⟨[version 2],hversion 2,?_⟩
            simp [scheduleMember,chainMember,hschedule,hchain,afterMember,namedMember,tailMember]
          | none =>
            refine ⟨[],List.forall_mem_nil _,?_⟩
            simp [scheduleMember,chainMember,hschedule,hchain,afterMember,namedMember,tailMember,stepsMember]

theorem lookup_member {α : Type} (o : Option α) (name key : String) (f : α → Json) :
    ((o.map fun a => (name,f a)).toList).lookup key = if key == name then o.map f else none := by
  cases o with
  | none =>
    rw [Option.map_none,Option.map_none]
    split <;> rfl
  | some a =>
    rw [Option.map_some,Option.toList_some,List.lookup_cons]
    split
    · rename_i hkey
      rw [hkey]
      rfl
    · rename_i hkey
      rw [hkey]
      rfl

theorem payload_lookup (hc : c.Sound) (hc' : c'.Sound) (heq : c.payload = c'.payload) {name : String}
    (hname : name ≠ "version") : c.members.lookup name = c'.members.lookup name := by
  obtain ⟨versions,hversions,hpayload⟩ := payload_members hc
  obtain ⟨versions',hversions',hpayload'⟩ := payload_members hc'
  have hnone : ∀ list : List (String × Json),(∀ member ∈ list,member.1 = "version") →
      list.lookup name = none := by
    intro list hlist
    rw [List.lookup_eq_none_iff]
    intro member hmember
    rw [hlist member hmember]
    exact bne_iff_ne.mpr hname
  rw [hpayload,hpayload',Json.obj.injEq] at heq
  have hlookup := congrArg (List.lookup name) heq
  rwa [List.lookup_append,List.lookup_append,hnone _ hversions,hnone _ hversions',Option.none_or,
    Option.none_or] at hlookup

theorem members_optional (c : Checked) (name : String)
    (hname : name ∉ ["sourceDb","client","sysid","jobname","jobcount","owner","program","generation"]) :
    c.members.lookup name = (if name == "sourceInstance" then c.sourceInstance.map Json.str else none).or
      ((if name == "steps" then c.steps.map fun steps => Json.arr (steps.map StepSpec.json) else none).or
      ((if name == "afterEvent" then c.after.map AfterEvent.json else none).or
      ((if name == "namedEvent" then c.named.map Awaited.json else none).or
      ((if name == "schedule" then c.schedule.map Schedule.json else none).or
      ((if name == "chainPred" then c.chainPred.map Json.str else none).or
      (if name == "tailEvent" then c.tail.map TailEvent.json else none)))))) := by
  simp only [List.mem_cons,not_or] at hname
  obtain ⟨h1,h2,h3,h4,h5,h6,h7,h8,-⟩ := hname
  simp only [Checked.members,Checked.base,stepsMember,afterMember,namedMember,scheduleMember,
    chainMember,tailMember,List.lookup_append,List.lookup_cons,lookup_member,beq_eq_false_iff_ne.mpr h1,
    beq_eq_false_iff_ne.mpr h2,beq_eq_false_iff_ne.mpr h3,beq_eq_false_iff_ne.mpr h4,
    beq_eq_false_iff_ne.mpr h5,beq_eq_false_iff_ne.mpr h6,beq_eq_false_iff_ne.mpr h7,
    beq_eq_false_iff_ne.mpr h8,List.lookup_nil,Option.none_or,Option.or_assoc]

theorem payload_inj (hc : c.Sound) (hc' : c'.Sound) (hid : c.id = c'.id)
    (heq : c.payload = c'.payload) : c = c' := by
  have hget : ∀ {name : String},name ≠ "version" → c.members.lookup name = c'.members.lookup name :=
    fun hname => payload_lookup hc hc' heq hname
  have hdb := hget (show "sourceDb" ≠ "version" by decide)
  have hclient := hget (show "client" ≠ "version" by decide)
  have hsysid := hget (show "sysid" ≠ "version" by decide)
  have hjobname := hget (show "jobname" ≠ "version" by decide)
  have hjobcount := hget (show "jobcount" ≠ "version" by decide)
  have howner := hget (show "owner" ≠ "version" by decide)
  have hprogram := hget (show "program" ≠ "version" by decide)
  have hgeneration := hget (show "generation" ≠ "version" by decide)
  have hinst := hget (show "sourceInstance" ≠ "version" by decide)
  have hsteps := hget (show "steps" ≠ "version" by decide)
  have hafter := hget (show "afterEvent" ≠ "version" by decide)
  have hnamed := hget (show "namedEvent" ≠ "version" by decide)
  have hschedule := hget (show "schedule" ≠ "version" by decide)
  have hchain := hget (show "chainPred" ≠ "version" by decide)
  have htail := hget (show "tailEvent" ≠ "version" by decide)
  simp [Checked.members,Checked.base,List.lookup_cons] at hdb hclient hsysid hjobname
  simp [Checked.members,Checked.base,List.lookup_cons] at hjobcount howner hprogram hgeneration
  rw [members_optional _ _ (by decide),members_optional _ _ (by decide)] at hinst hsteps hafter hnamed
  rw [members_optional _ _ (by decide),members_optional _ _ (by decide)] at hschedule hchain htail
  simp at hinst hsteps hafter hnamed
  simp at hschedule hchain htail
  have hopt : ∀ {α : Type} {f : α → Json} {o o' : Option α},(∀ {a b},f a = f b → a = b) →
      o.map f = o'.map f → o = o' := fun hf hmap => Option.map_injective (fun _ _ => hf) hmap
  have hstr : ∀ {a b : Text},Json.str a = Json.str b → a = b := fun hab => Json.str.inj hab
  have hlist : ∀ {as bs : List StepSpec},Json.arr (as.map StepSpec.json) = Json.arr (bs.map StepSpec.json) →
      as = bs := fun hab => map_json StepSpec.json_inj (Json.arr.inj hab)
  have horigin : c.origin = c'.origin := by
    cases hc₁ : c.origin
    cases hc₂ : c'.origin
    rw [hc₁,hc₂] at hdb hclient hsysid howner
    exact Origin.mk.injEq .. ▸ ⟨hdb,hclient,hsysid,howner⟩
  cases c
  cases c'
  rw [Checked.mk.injEq]
  exact ⟨hid,horigin,hjobname,hjobcount,hprogram,hgeneration,hopt hstr hinst,hopt hlist hsteps,
    hopt AfterEvent.json_inj hafter,hopt Awaited.json_inj hnamed,hopt TailEvent.json_inj htail,
    hopt Schedule.json_inj hschedule,hopt hstr hchain⟩

end payload

theorem check_id (hcheck : check h intent = some c) : c.id = h.lower intent.intentId := by
  rw [check] at hcheck
  obtain ⟨steps,-,hrest⟩ := Option.bind_eq_some_iff.mp hcheck
  split at hrest
  · rw [← Option.some.inj hrest]
  · cases hrest

section ledger

variable {s₁ s₂ : Store} {events : List Event} {intent' : Intent}

theorem effect_ledger {i : Import} (heffect : Effect h s call answer s') (hi : s.imports.find id = some i) :
    s'.imports.find id = some i := by
  cases heffect with
  | unchanged hsame hquiet => rwa [hsame.imports]
  | turned ht hemitted hturn hfresh hnew => rwa [hemitted.imports,ht.imports]
  | signalled hemitted hfresh => rwa [hemitted.imports]
  | imported hcheck hcreated hledger hclear =>
    rw [Table.find_insert hledger]
    split
    · rename_i hid
      rw [hid,(Table.insert_some hledger).1] at hi
      cases hi
    · exact hi
  | added horigin hsteps hstate hafter hnamed hschedule hcreated himports hanswer hcreates => rwa [himports]

structure Booked (h : Platform) (c : Checked) (s : Store) : Prop where
  row : s.imports.find c.id = some ⟨c.id,h.digest c.payload,c.id⟩
  run : ∃ r,s.runs.find c.id = some r ∧ r.jobEndInstance = c.sourceInstance

theorem imported_booked (hcheck : check h intent = some c)
    (hcall : s.importIntent h intent now = .ok (.imported,s₁)) : Booked h c s₁ := by
  obtain ⟨hcreated,hledger⟩ := effect_imported (importIntent_effect hcall) hcheck
  refine ⟨?_,_,(hcreated.runs c.id).trans (if_pos rfl),rfl⟩
  rw [Table.find_insert hledger,if_pos rfl]

theorem later_booked (hbooked : Booked h c s) (hlater : Later h s events s₂) : Booked h c s₂ := by
  induction hlater with
  | nothing => exact hbooked
  | step _ hstep ih =>
    have heffect := step_effect hstep
    obtain ⟨r,hr,hinst⟩ := ih.run
    obtain ⟨r',hr',hkept,-⟩ := effect_run heffect hr
    refine ⟨effect_ledger heffect ih.row,r',hr',?_⟩
    rw [hkept]
    exact hinst

def Checked.former (c : Checked) : Checked := {c with sourceInstance := none}

theorem former_sound (hc : c.Sound) : c.former.Sound := ⟨hc.timed,hc.single,hc.chained⟩

def Apart (h : Platform) (c c' : Checked) : Prop :=
  (h.digest c.payload = h.digest c'.payload → c.payload = c'.payload) ∧
    (h.digest c.payload = h.digest c'.former.payload → c.payload = c'.former.payload)

theorem recorded_iff (hbooked : Booked h c s) (hc : c.Sound) (hc' : c'.Sound) (hid : c'.id = c.id)
    (hapart : Apart h c c') : s.recorded h c' ⟨c.id,h.digest c.payload,c.id⟩ = true ↔
      c' = c ∨ c = c'.former := by
  obtain ⟨r,hr,hinst⟩ := hbooked.run
  have hprior : ((s.runs.find c.id).bind fun r => r.jobEndInstance) = c.sourceInstance := by
    rw [hr]
    exact hinst
  simp only [Store.recorded,hid,hprior,Bool.and_eq_true,Bool.or_eq_true,decide_eq_true_eq]
  constructor
  · rintro ⟨hsame | ⟨-,hsame⟩,-⟩
    · exact .inl (payload_inj hc hc' hid.symm (hapart.1 hsame)).symm
    · exact .inr (payload_inj hc (former_sound hc') hid.symm (hapart.2 hsame))
  · rintro (rfl | hformer)
    · exact ⟨.inl rfl,trivial⟩
    · have hnone : c.sourceInstance = none := by
        rw [hformer]
        rfl
      refine ⟨?_,trivial⟩
      cases hnew : c'.sourceInstance with
      | none =>
        have hsame : c' = c'.former := by
          rw [Checked.former,← hnew]
        rw [hformer,← hsame]
        exact .inl rfl
      | some inst =>
        refine .inr ⟨⟨rfl,hnone ▸ rfl⟩,?_⟩
        rw [hformer]
        rfl

theorem import_booked (hbooked : Booked h c s) (hc : c.Sound) (hcheck' : check h intent' = some c')
    (hid : c'.id = c.id) (hapart : Apart h c c') : s.importIntent h intent' now =
      if c' = c ∨ c = c'.former then .ok (.recorded c.id,s) else .error .changedAfterImport := by
  have hrecorded := recorded_iff hbooked hc (check_sound hcheck') hid hapart
  rw [Store.importIntent,hcheck']
  dsimp only
  rw [hid,hbooked.row]
  dsimp only
  by_cases hsame : c' = c ∨ c = c'.former
  · rw [if_pos hsame,if_pos (hrecorded.mpr hsame)]
  · rw [if_neg hsame,if_neg fun his => hsame (hrecorded.mp his)]

theorem import_same (hbooked : Booked h c s) (hcheck : check h intent = some c) :
    s.importIntent h intent now = .ok (.recorded c.id,s) := by
  have hrecorded : s.recorded h c ⟨c.id,h.digest c.payload,c.id⟩ = true := by simp [Store.recorded]
  rw [Store.importIntent,hcheck]
  dsimp only
  rw [hbooked.row]
  dsimp only
  rw [if_pos hrecorded]

theorem import_answers (hcheck : check h intent = some c)
    (hcall : s.importIntent h intent now = .ok (.imported,s₁)) (hlater : Later h s₁ events s₂)
    (nowStamp : Stamp) : s₂.importIntent h intent nowStamp = .ok (.recorded c.id,s₂) ∧
      ∃ r,s₂.runs.find c.id = some r ∧ Kept (Store.runOf c now (s.startsNow c)) r := by
  refine ⟨import_same (later_booked (imported_booked hcheck hcall) hlater) hcheck,?_⟩
  obtain ⟨hcreated,-⟩ := effect_imported (importIntent_effect hcall) hcheck
  have hfirst : s₁.runs.find c.id = some (Store.runOf c now (s.startsNow c)) :=
    (hcreated.runs c.id).trans (if_pos rfl)
  induction hlater with
  | nothing => exact ⟨_,hfirst,rfl⟩
  | step _ hstep ih =>
    obtain ⟨r,hr,hkept⟩ := ih
    obtain ⟨r',hr',hkept',-⟩ := effect_run (step_effect hstep) hr
    exact ⟨r',hr',hkept.trans hkept'⟩

theorem importIntent_check (hcall : s.importIntent h intent now = .ok (answer,s')) :
    ∃ c,check h intent = some c := by
  rw [Store.importIntent] at hcall
  split at hcall
  · cases hcall
  · rename_i c hcheck
    exact ⟨c,hcheck⟩

theorem importIntent_answer (hcheck : check h intent = some c)
    (hcall : s.importIntent h intent now = .ok (answer,s')) :
    answer = .imported ∨ answer = .recorded c.id ∧ s' = s ∧ (s.imports.find c.id).isSome = true := by
  rw [Store.importIntent,hcheck] at hcall
  dsimp only at hcall
  split at hcall
  · rename_i old hold
    split at hcall
    · obtain ⟨rfl,rfl⟩ := ok_pair hcall
      exact .inr ⟨rfl,rfl,hold ▸ rfl⟩
    · cases hcall
  · split at hcall
    · cases hcall
    obtain ⟨s₁,-,hcall⟩ := bind_eq_ok hcall
    obtain ⟨s₂,-,hcall⟩ := bind_eq_ok hcall
    split at hcall
    · exact .inl (ok_pair hcall).1.symm
    · obtain ⟨s₃,-,hcall⟩ := bind_eq_ok hcall
      exact .inl (ok_pair hcall).1.symm

theorem effect_others (id : Id) (heffect : Effect h s call answer s') (hcreates : call.creates h ≠ some id) :
    ((s'.runs.find id).isSome = (s.runs.find id).isSome) ∧ s'.imports.find id = s.imports.find id := by
  have hemits : ∀ {a b : Store} {events : List NamedEvent} {jobs : List JobEvent},
      Emitted events jobs a b → (b.runs.find id).isSome = (a.runs.find id).isSome := by
    intro a b events jobs hemitted
    rw [hemitted.runs,Option.isSome_map]
  cases heffect with
  | unchanged hsame hquiet => exact ⟨by rw [hsame.runs],by rw [hsame.imports]⟩
  | @turned _ _ r r' rows events jobs s₁ s' ht hemitted hturn hfresh hnew =>
    refine ⟨(hemits hemitted).trans ?_,by rw [hemitted.imports,ht.imports]⟩
    rw [ht.runs]
    split
    · rename_i hid
      rw [hid,ht.found]
      rfl
    · rfl
  | signalled hemitted hfresh => exact ⟨hemits hemitted,by rw [hemitted.imports]⟩
  | @imported _ _ c s' hcheck hcreated hledger hclear =>
    have hid : id ≠ c.id := fun hid => hcreates (by rw [Call.creates,hid,check_id hcheck])
    exact ⟨congrArg Option.isSome ((hcreated.runs id).trans (if_neg hid)),
      (Table.find_insert hledger id).trans (if_neg hid)⟩
  | @added _ _ r s' horigin hsteps hstate hafter hnamed hschedule hcreated himports hanswer hcall =>
    have hid : id ≠ r.id := fun hid => hcreates (by rw [hcall,hid])
    exact ⟨by rw [hcreated.runs,if_neg hid],by rw [himports]⟩

end ledger

end OpenSteamgate.Jobs
