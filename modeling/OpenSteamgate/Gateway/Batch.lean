import OpenSteamgate.Library.Storage

namespace OpenSteamgate.Gateway.Batch

structure Request where
  method : String
  url : String
  headers : List (String × String)
  body : String
  bodyX : List UInt8

structure Response where
  status : Int
  reason : String
  contentType : String
  body : String
  bodyX : List UInt8
  headers : List (String × String)

structure Part where
  changeset : Bool
  requests : List Request
  single : changeset = false → ∃ request, requests = [request]

def crlf : String := "\r\n"

def byteLength (s : String) : Nat := s.utf8ByteSize

def formatPart (response : Response) : String :=
  "Content-Type: application/http" ++ crlf ++ "Content-Transfer-Encoding: binary" ++ crlf ++ crlf ++
    "HTTP/1.1 " ++ toString response.status ++ " " ++ response.reason ++ crlf ++
    (if response.contentType ≠ "" then "Content-Type: " ++ response.contentType ++ crlf else "") ++
    "Content-Length: " ++ toString (byteLength response.body) ++ crlf ++
    "DataServiceVersion: 2.0" ++ crlf ++
    response.headers.foldl (fun out hdr => out ++ (hdr.1 ++ ": " ++ hdr.2 ++ crlf)) "" ++
    crlf ++ response.body ++ crlf

variable {D : Type}

structure State (D : Type) where
  db : TwoLevel D
  counter : Nat
  ran : List Request
  out : String

variable (run : Request → TwoLevel D → Response × D)

def State.runRequest (st : State D) (request : Request) : State D × Response :=
  let (response,working) := run request st.db
  ({ st with db := { st.db with working := working }, ran := st.ran ++ [request] },response)

def changesetLoop (boundary cs : String) :
    List Request → State D → String → State D × String × Bool
  | [], st, csOut => (st,csOut,false)
  | request :: requests, st, csOut =>
      let (st,response) := st.runRequest run request
      if 400 ≤ response.status then
        ({ st with
            db := st.db.rollback
            out := st.out ++ ("--" ++ boundary ++ crlf) ++ formatPart response },csOut,true)
      else changesetLoop boundary cs requests st
        (csOut ++ ("--" ++ cs ++ crlf) ++ formatPart response)

def partStep (boundary : String) (st : State D) (part : Part) : State D :=
  if part.changeset = true then
    let st := { st with counter := st.counter + 1 }
    let cs := "changesetresponse_stg_" ++ toString st.counter
    let st := { st with db := st.db.commit }
    let (st,csOut,failed) := changesetLoop run boundary cs part.requests st ""
    if failed = false then
      { st with
        db := st.db.commit
        out := st.out ++ ("--" ++ boundary ++ crlf ++ "Content-Type: multipart/mixed; boundary=" ++
          cs ++ crlf ++ crlf) ++ csOut ++ ("--" ++ cs ++ "--" ++ crlf) }
    else st
  else
    match part.requests with
    | [] => st
    | request :: _ =>
        let (st,response) := st.runRequest run request
        { st with out := st.out ++ ("--" ++ boundary ++ crlf) ++ formatPart response }

def handle (db : TwoLevel D) (counter : Nat) (parts : List Part) : State D × Response :=
  let counter := counter + 1
  let boundary := "batchresponse_stg_" ++ toString counter
  let st := parts.foldl (partStep run boundary) ⟨db,counter,[],""⟩
  let out := st.out ++ ("--" ++ boundary ++ "--" ++ crlf)
  (st,{
    status := 202
    reason := "Accepted"
    contentType := "multipart/mixed; boundary=" ++ boundary
    body := out
    bodyX := []
    headers := [] })

abbrev effect (request : Request) (db : TwoLevel D) : D := (run request db).2

abbrev serve (db : TwoLevel D) (request : Request) : TwoLevel D := TwoLevel.serve (effect run) db request

abbrev serveAll (db : TwoLevel D) (requests : List Request) : TwoLevel D :=
  TwoLevel.serveAll (effect run) db requests

@[grind =] def answers : TwoLevel D → List Request → List Response
  | _, [] => []
  | db, request :: requests => (run request db).1 :: answers (serve run db request) requests

def Response.failed (response : Response) : Prop := 400 ≤ response.status

instance (response : Response) : Decidable response.failed :=
  inferInstanceAs (Decidable (400 ≤ response.status))

def Part.fails (db : TwoLevel D) (part : Part) : Prop :=
  part.changeset = true ∧ ∃ response ∈ answers run db.commit part.requests, response.failed

instance (db : TwoLevel D) (part : Part) : Decidable (part.fails run db) :=
  inferInstanceAs (Decidable (_ ∧ _))

def Part.after (db : TwoLevel D) (part : Part) : TwoLevel D :=
  if part.fails run db then db.commit
  else if part.changeset = true then (serveAll run db.commit part.requests).commit
  else serveAll run db part.requests

def after (db : TwoLevel D) (parts : List Part) : TwoLevel D := parts.foldl (Part.after run) db

@[grind =] def upToFailure : TwoLevel D → List Request → List Request
  | _, [] => []
  | db, request :: requests =>
      request :: if (run request db).1.failed then [] else upToFailure (serve run db request) requests

def Part.ran (db : TwoLevel D) (part : Part) : List Request :=
  if part.changeset = true then upToFailure run db.commit part.requests else part.requests

@[grind =] def ran : TwoLevel D → List Part → List Request
  | _, [] => []
  | db, part :: parts => part.ran run db ++ ran (part.after run db) parts

def Part.text (db : TwoLevel D) (counter : Nat) (part : Part) : String :=
  if part.changeset = true then
    let cs := "changesetresponse_stg_" ++ toString (counter + 1)
    match (answers run db.commit part.requests).find? (·.failed) with
    | some response => formatPart response
    | none =>
        "Content-Type: multipart/mixed; boundary=" ++ cs ++ crlf ++ crlf ++
          String.join ((answers run db.commit part.requests).map fun response =>
            "--" ++ cs ++ crlf ++ formatPart response) ++ ("--" ++ cs ++ "--" ++ crlf)
  else String.join ((answers run db part.requests).map formatPart)

@[grind =] def texts : TwoLevel D → Nat → List Part → List String
  | _, _, [] => []
  | db, counter, part :: parts =>
      part.text run db counter ::
        texts (part.after run db) (if part.changeset = true then counter + 1 else counter) parts

variable {run}

section changeset

variable (boundary cs : String) {request : Request} {st : State D}

theorem changesetLoop_ok (h : ¬(run request st.db).1.failed) (requests : List Request)
    (csOut : String) :
    changesetLoop run boundary cs (request :: requests) st csOut =
      changesetLoop run boundary cs requests
        { st with db := serve run st.db request, ran := st.ran ++ [request] }
        (csOut ++ ("--" ++ cs ++ crlf) ++ formatPart (run request st.db).1) := if_neg h

theorem changesetLoop_stop (h : (run request st.db).1.failed) (requests : List Request)
    (csOut : String) :
    changesetLoop run boundary cs (request :: requests) st csOut =
      ({ st with
          db := st.db.rollback
          ran := st.ran ++ [request]
          out := st.out ++ ("--" ++ boundary ++ crlf) ++ formatPart (run request st.db).1 },
        csOut,true) := if_pos h

theorem changesetLoop_done (st : State D) {requests : List Request}
    (h : (answers run st.db requests).find? (·.failed) = none) (csOut : String) :
    changesetLoop run boundary cs requests st csOut =
      ({ st with db := serveAll run st.db requests, ran := st.ran ++ requests },
        csOut ++ String.join ((answers run st.db requests).map fun response =>
          "--" ++ cs ++ crlf ++ formatPart response),false) := by
  induction requests generalizing st csOut with
  | nil => simp [changesetLoop,serveAll,TwoLevel.serveAll,answers]
  | cons request requests ih =>
    rw [answers,List.find?_cons] at h
    by_cases hf : (run request st.db).1.failed
    · simp [hf] at h
    · simp only [hf,decide_false] at h
      rw [changesetLoop_ok boundary cs hf,ih _ h]
      simp [answers,serveAll,TwoLevel.serveAll,String.append_assoc]

theorem changesetLoop_failed (st : State D) {requests : List Request} {response : Response}
    (h : (answers run st.db requests).find? (·.failed) = some response) (csOut : String) :
    ∃ csOut', changesetLoop run boundary cs requests st csOut =
      ({ st with
          db := st.db.rollback
          ran := st.ran ++ upToFailure run st.db requests
          out := st.out ++ ("--" ++ boundary ++ crlf) ++ formatPart response },csOut',true) := by
  induction requests generalizing st csOut with
  | nil => cases h
  | cons request requests ih =>
    rw [answers,List.find?_cons] at h
    by_cases hf : (run request st.db).1.failed
    · simp only [hf,decide_true,Option.some.injEq] at h
      subst h
      refine ⟨csOut,?_⟩
      rw [changesetLoop_stop boundary cs hf,upToFailure,if_pos hf]
    · simp only [hf,decide_false] at h
      rw [changesetLoop_ok boundary cs hf,upToFailure,if_neg hf]
      obtain ⟨csOut',hc⟩ := ih
        { st with db := serve run st.db request, ran := st.ran ++ [request] } h
        (csOut ++ ("--" ++ cs ++ crlf) ++ formatPart (run request st.db).1)
      refine ⟨csOut',?_⟩
      rw [hc,List.append_assoc,List.singleton_append]
      rfl

theorem upToFailure_of_done {db : TwoLevel D} {requests : List Request}
    (h : (answers run db requests).find? (·.failed) = none) :
    upToFailure run db requests = requests := by
  induction requests generalizing db with
  | nil => rfl
  | cons request requests ih =>
    rw [answers,List.find?_cons] at h
    by_cases hf : (run request db).1.failed
    · simp [hf] at h
    · simp only [hf,decide_false] at h
      rw [upToFailure,if_neg hf,ih h]

end changeset

theorem find?_eq_none_of_not_fails {db : TwoLevel D} {part : Part} (hc : part.changeset = true)
    (h : ¬part.fails run db) :
    (answers run db.commit part.requests).find? (·.failed) = none := by
  refine List.find?_eq_none.mpr fun response hr hf => ?_
  exact h ⟨hc,response,hr,of_decide_eq_true hf⟩

theorem find?_eq_some_of_fails {db : TwoLevel D} {part : Part} (h : part.fails run db) :
    ∃ response, (answers run db.commit part.requests).find? (·.failed) = some response := by
  obtain ⟨-,response,hr,hf⟩ := h
  exact Option.isSome_iff_exists.mp (List.find?_isSome.mpr ⟨response,hr,decide_eq_true hf⟩)

theorem partStep_spec (boundary : String) (st : State D) (part : Part) :
    partStep run boundary st part =
      { db := part.after run st.db
        counter := if part.changeset = true then st.counter + 1 else st.counter
        ran := st.ran ++ part.ran run st.db
        out := st.out ++ ("--" ++ boundary ++ crlf ++ part.text run st.db st.counter) } := by
  by_cases hc : part.changeset = true
  · by_cases hf : part.fails run st.db
    · obtain ⟨response,hr⟩ := find?_eq_some_of_fails hf
      obtain ⟨csOut',hl⟩ := changesetLoop_failed boundary
        ("changesetresponse_stg_" ++ toString (st.counter + 1))
        { st with counter := st.counter + 1, db := st.db.commit } hr ""
      simp only [partStep,if_pos hc,hl,Part.after,if_pos hf,Part.ran,Part.text,hr,
        TwoLevel.rollback_commit,String.append_assoc]
      rfl
    · have hr := find?_eq_none_of_not_fails hc hf
      have hl := changesetLoop_done boundary
        ("changesetresponse_stg_" ++ toString (st.counter + 1))
        { st with counter := st.counter + 1, db := st.db.commit } hr ""
      simp only [partStep,if_pos hc,hl,Part.after,if_neg hf,Part.ran,Part.text,hr,
        upToFailure_of_done hr,String.append_assoc]
      rfl
  · obtain ⟨request,hp⟩ := part.single (by simpa using hc)
    have hf : ¬part.fails run st.db := fun h => hc h.1
    simp only [partStep,if_neg hc,hp,Part.after,if_neg hf,Part.ran,Part.text,answers]
    simp [State.runRequest,serveAll,TwoLevel.serveAll,TwoLevel.serve,String.append_assoc]

theorem foldl_partStep (boundary : String) (parts : List Part) (st : State D) :
    let st' := parts.foldl (partStep run boundary) st
    st'.db = after run st.db parts ∧ st'.ran = st.ran ++ ran run st.db parts ∧
      st'.out = st.out ++ String.join ((texts run st.db st.counter parts).map fun text =>
        "--" ++ boundary ++ crlf ++ text) := by
  induction parts generalizing st with
  | nil => simp [after,ran,texts]
  | cons part parts ih =>
    obtain ⟨hdb,hran,hout⟩ := ih (partStep run boundary st part)
    rw [partStep_spec] at hdb hran hout
    refine ⟨?_,?_,?_⟩
    · rw [List.foldl_cons,partStep_spec,hdb]
      rfl
    · rw [List.foldl_cons,partStep_spec,hran,ran,List.append_assoc]
    · rw [List.foldl_cons,partStep_spec,hout,texts,List.map_cons,String.join_cons,
        String.append_assoc]

theorem length_texts (db : TwoLevel D) (counter : Nat) (parts : List Part) :
    (texts run db counter parts).length = parts.length := by
  induction parts generalizing db counter with
  | nil => rfl
  | cons part parts ih => rw [texts,List.length_cons,List.length_cons,ih]

theorem Part.after_working_of_fails {db : TwoLevel D} {part : Part} (h : part.fails run db) :
    (part.after run db).working = db.working := by
  rw [Part.after,if_pos h,TwoLevel.commit_working]

theorem after_append (db : TwoLevel D) (before parts : List Part) :
    after run db (before ++ parts) = after run (after run db before) parts := by
  rw [after,List.foldl_append]
  rfl

def kept (run : Request → TwoLevel D → Response × D) : TwoLevel D → List Part → List Request
  | _, [] => []
  | db, part :: parts =>
      (if part.fails run db then [] else part.requests) ++ kept run (part.after run db) parts

theorem batch_all_or_nothing (run : Request → TwoLevel D → Response × D) (db : TwoLevel D)
    (counter : Nat) (parts : List Part) :
    (handle run db counter parts).1.db = after run db parts ∧
      (handle run db counter parts).1.ran = ran run db parts ∧
      (∀ before part rest, parts = before ++ part :: rest → part.fails run (after run db before) →
        (after run db (before ++ [part])).working = (after run db before).working) ∧
      (texts run db (counter + 1) parts).length = parts.length ∧
      (handle run db counter parts).2.body =
        String.join ((texts run db (counter + 1) parts).map fun text =>
          "--" ++ ("batchresponse_stg_" ++ toString (counter + 1)) ++ crlf ++ text) ++
        ("--" ++ ("batchresponse_stg_" ++ toString (counter + 1)) ++ "--" ++ crlf) := by
  have h := @foldl_partStep D run ("batchresponse_stg_" ++ toString (counter + 1)) parts
    ⟨db,counter + 1,[],""⟩
  refine ⟨h.1,h.2.1,?_,length_texts db _ parts,?_⟩
  · intro before part rest _ hf
    rw [after_append]
    exact Part.after_working_of_fails hf
  · rw [handle]
    simp only [h.2.2,String.empty_append]

end OpenSteamgate.Gateway.Batch
