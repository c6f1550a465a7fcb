import OpenSteamgate.Enq.Accounting

namespace OpenSteamgate.Adt

open Enq (Time Request Result OwnerID)

structure Server where
  instanceName : String
  journal : List Enq.Op
  table : Enq.State
  played : (Enq.history instanceName journal).1 = table

def Server.new (instanceName : String) : Server := ⟨instanceName,[],.new instanceName,rfl⟩

def Server.serve (srv : Server) (op : Enq.Op) : Server :=
  ⟨srv.instanceName,srv.journal ++ [op],(srv.table.step op).1,by
    rw [Enq.history_snoc,srv.played]⟩

def Server.openSession (srv : Server) (user : String) (now₁ now₂ : Time) : Server × Nat :=
  (srv.serve (.openSession user now₁ now₂),(srv.table.openSession user now₁ now₂).2)

def Server.enqueue (srv : Server) (sid : Nat) (r : Request) (now : Time) : Server × Result :=
  (srv.serve (.enqueue sid r now),(srv.table.enqueue sid r now).2)

def Server.commit (srv : Server) (sid : Nat) (updated : Bool) (now : Time) : Server × OwnerID :=
  (srv.serve (.commit sid updated now),(srv.table.commit sid updated now).2)

def Server.rollback (srv : Server) (sid : Nat) (now : Time) : Server := srv.serve (.rollback sid now)

def Server.updateDone (srv : Server) (sid : Nat) (owner : OwnerID) : Server :=
  if owner = [] then srv else srv.serve (.updateDone sid owner)

def Server.endSession (srv : Server) (sid : Nat) : Server := srv.serve (.endSession sid)

def endedKeep : Nat := 10000

def blank (c : Char) : Bool :=
  ('\t' ≤ c && c ≤ '\r') || c == ' ' || c == '\u00a0' || c == '\u1680' ||
    ('\u2000' ≤ c && c ≤ '\u200a') || c == '\u2028' || c == '\u2029' || c == '\u202f' ||
    c == '\u205f' || c == '\u3000' || c == '\ufeff'

def text (s : String) : String := String.ofList (s.toList.rdropWhile blank)

structure Owner where
  keyPrefix : String

def Owner.owns (o : Owner) (key : String) : Bool :=
  o.keyPrefix != "" && o.keyPrefix.toList.isPrefixOf key.toList

def Owner.idOf (o : Owner) (key : String) : String :=
  if o.owns key then String.ofList (key.toList.drop o.keyPrefix.toList.length) else key

def Owner.key (o : Owner) (id : String) : String := o.keyPrefix ++ o.idOf id

structure Kernel where
  server : Server
  owner : Owner
  sessions : AList (fun _ : String => Nat)
  pins : AList (fun _ : Nat => Nat)
  retired : AList (fun _ : Nat => String)
  ended : List String

def Kernel.new (server : Server) (owner : Owner) : Kernel := ⟨server,owner,∅,∅,∅,[]⟩

def Kernel.session (k : Kernel) (key : String) : Nat := (k.sessions.lookup key).getD 0

def Kernel.pin (k : Kernel) (sid : Nat) : Nat := (k.pins.lookup sid).getD 0

def Kernel.keyOf (k : Kernel) (id : String) : String := k.owner.key (text id)

def Kernel.bind (k : Kernel) (id user : String) (now₁ now₂ : Time) : Kernel × Bool :=
  let key := k.keyOf id
  if key ∈ k.ended then (k,false)
  else if k.session key ≠ 0 then (k,true)
  else
    let o := k.server.openSession (text user) now₁ now₂
    ({ k with server := o.1, sessions := k.sessions.insert key o.2 },true)

def Kernel.drop (k : Kernel) (key : String) : Kernel :=
  let sid := k.session key
  if sid ≠ 0 then
    { k with sessions := k.sessions.erase key, server := k.server.endSession sid }
  else k

def Kernel.retireNow (k : Kernel) (sid : Nat) : Kernel :=
  { k with retired := k.retired.erase sid, server := k.server.endSession sid }

def Kernel.retiredUnder (k : Kernel) (key : String) : List Nat :=
  (k.retired.entries.filter fun e => e.2 == key).map fun e => e.1

def Kernel.endKey (k : Kernel) (id : String) : Kernel :=
  let key := k.keyOf id
  let k := ({ k with ended := Recency.push endedKeep key k.ended } : Kernel).drop key
  (k.retiredUnder key).foldl Kernel.retireNow k

def Kernel.revive (k : Kernel) (id : String) : Kernel :=
  { k with ended := k.ended.erase (k.keyOf id) }

def Kernel.handle (k : Kernel) (id : String) : Nat := k.session (k.keyOf id)

def Kernel.takePin (k : Kernel) (id user : String) (now₁ now₂ : Time) : Kernel × Option Nat :=
  let key := k.keyOf id
  if key ∈ k.ended then (k,none)
  else
    let sid := k.session key
    if sid ≠ 0 then ({ k with pins := k.pins.insert sid (k.pin sid + 1) },some sid)
    else
      let o := k.server.openSession (text user) now₁ now₂
      let k := { k with server := o.1, sessions := k.sessions.insert key o.2 }
      ({ k with pins := k.pins.insert o.2 (k.pin o.2 + 1) },some o.2)

def Kernel.unpin (k : Kernel) (sid : Nat) : Kernel :=
  if k.pin sid ≤ 1 then
    let k := { k with pins := k.pins.erase sid }
    if (k.retired.lookup sid).isSome then k.retireNow sid else k
  else { k with pins := k.pins.insert sid (k.pin sid - 1) }

def Kernel.dropContext (k : Kernel) (id : String) (sid : Nat) : Kernel :=
  let key := k.keyOf id
  if sid = 0 then k
  else if k.session key ≠ sid ∧ ¬(k.retired.lookup sid).isSome then k
  else
    let k := if k.session key = sid then { k with sessions := k.sessions.erase key } else k
    if 0 < k.pin sid then { k with retired := k.retired.insert sid key } else k.retireNow sid

theorem text_text (s : String) : text (text s) = text s := by
  simp [text,List.rdropWhile_idempotent]

theorem lookup_of_erase {K V : Type} [DecidableEq K] {m : AList (fun _ : K => V)} {a b : K} {v : V}
    (h : (m.erase a).lookup b = some v) : m.lookup b = some v := by
  by_cases he : b = a
  · subst he
    simp at h
  · rwa [AList.lookup_erase_ne he] at h

theorem lookup_of_insert {K V : Type} [DecidableEq K] {m : AList (fun _ : K => V)} {a b : K}
    {u v : V} (h : (m.insert a u).lookup b = some v) :
    (a = b ∧ u = v) ∨ (b ≠ a ∧ m.lookup b = some v) := by
  by_cases he : b = a
  · subst he
    rw [AList.lookup_insert,Option.some.injEq] at h
    exact .inl ⟨rfl,h⟩
  · rw [AList.lookup_insert_ne he] at h
    exact .inr ⟨he,h⟩

section Frame

variable (k : Kernel) (id user key : String) (sid : Nat) (now₁ now₂ : Time)

theorem keyOf_text : k.keyOf (text id) = k.keyOf id := by
  rw [Kernel.keyOf,Kernel.keyOf,text_text]

@[simp] theorem retireNow_sessions : (k.retireNow sid).sessions = k.sessions := rfl
@[simp] theorem retireNow_owner : (k.retireNow sid).owner = k.owner := rfl
@[simp] theorem retireNow_ended : (k.retireNow sid).ended = k.ended := rfl

theorem retireAll_frame (sids : List Nat) : (sids.foldl Kernel.retireNow k).sessions = k.sessions ∧
    (sids.foldl Kernel.retireNow k).owner = k.owner ∧
    (sids.foldl Kernel.retireNow k).ended = k.ended := by
  induction sids generalizing k with
  | nil => exact ⟨rfl,rfl,rfl⟩
  | cons sid sids ih => simpa using ih (k.retireNow sid)

theorem drop_frame : (k.drop key).owner = k.owner ∧ (k.drop key).ended = k.ended := by
  simp only [Kernel.drop]
  split_ifs <;> exact ⟨rfl,rfl⟩

theorem endKey_frame : (k.endKey id).owner = k.owner ∧
    (k.endKey id).ended = Recency.push endedKeep (k.keyOf id) k.ended := by
  obtain ⟨-,ho,he⟩ := retireAll_frame (({ k with
    ended := Recency.push endedKeep (k.keyOf id) k.ended } : Kernel).drop (k.keyOf id))
    ((({ k with ended := Recency.push endedKeep (k.keyOf id) k.ended } : Kernel).drop
      (k.keyOf id)).retiredUnder (k.keyOf id))
  have hd := drop_frame { k with ended := Recency.push endedKeep (k.keyOf id) k.ended } (k.keyOf id)
  exact ⟨ho.trans hd.1,he.trans hd.2⟩

theorem unpin_frame : (k.unpin sid).sessions = k.sessions ∧ (k.unpin sid).owner = k.owner ∧
    (k.unpin sid).ended = k.ended := by
  simp only [Kernel.unpin]
  split_ifs <;> exact ⟨rfl,rfl,rfl⟩

theorem dropContext_frame : (k.dropContext id sid).owner = k.owner ∧ (k.dropContext id sid).ended = k.ended ∧
    ∀ key a,(k.dropContext id sid).sessions.lookup key = some a →
      k.sessions.lookup key = some a := by
  simp only [Kernel.dropContext]
  split_ifs <;> refine ⟨rfl,rfl,fun key a hk => ?_⟩ <;> first
    | exact hk
    | exact lookup_of_erase hk

theorem bind_frame : (k.bind id user now₁ now₂).1.owner = k.owner ∧
    (k.bind id user now₁ now₂).1.ended = k.ended := by
  simp only [Kernel.bind]
  split_ifs <;> exact ⟨rfl,rfl⟩

theorem takePin_frame : (k.takePin id user now₁ now₂).1.owner = k.owner ∧
    (k.takePin id user now₁ now₂).1.ended = k.ended := by
  simp only [Kernel.takePin]
  split_ifs <;> exact ⟨rfl,rfl⟩

end Frame

end OpenSteamgate.Adt
