import Mathlib.Data.List.Perm.Basic
import Mathlib.Data.List.Nodup

namespace OpenSteamgate.Buffer

abbrev Text := List Char

-- `ty_change`; a row is a data reference, whose initial value is `default`
structure Change (ρ : Type) where
  entity : Text
  key : Text
  operation : Char
  row : ρ

variable {ρ : Type}

def Change.isAt (change : Change ρ) (entity key : Text) : Bool :=
  change.entity = entity && change.key = key

-- `sy-tabix` of the first change of the key, and 0 where there is none
def index_of (mt_delta : List (Change ρ)) (entity key : Text) : Nat :=
  match mt_delta.findIdx? fun change => change.isAt entity key with
  | none => 0
  | some i => i + 1

def modify (mt_delta : List (Change ρ)) (change : Change ρ) : List (Change ρ) :=
  let index := index_of mt_delta change.entity change.key
  if index = 0 then mt_delta ++ [change]
  else
    match mt_delta[index - 1]? with
    | none => mt_delta
    | some held =>
      if held.operation = 'C' ∧ change.operation = 'D' then mt_delta.eraseIdx (index - 1)
      else if held.operation = 'D' ∧ change.operation = 'C' then
        mt_delta.set (index - 1) {held with operation := 'U',row := change.row}
      else
        mt_delta.set (index - 1)
          {held with
            operation := if held.operation ≠ 'C' then change.operation else held.operation
            row := if change.operation ≠ 'D' then change.row else held.row}

-- the initial operation is a blank
def operation_of (mt_delta : List (Change ρ)) (entity key : Text) : Char :=
  let index := index_of mt_delta entity key
  if index = 0 then ' '
  else
    match mt_delta[index - 1]? with
    | none => ' '
    | some change => change.operation

def row_of [Inhabited ρ] (mt_delta : List (Change ρ)) (entity key : Text) : ρ :=
  let index := index_of mt_delta entity key
  if index = 0 then default
  else
    match mt_delta[index - 1]? with
    | none => default
    | some change => change.row

def discard (_ : List (Change ρ)) : List (Change ρ) := []

def count (mt_delta : List (Change ρ)) : Nat := mt_delta.length

def recorded (changes : List (Change ρ)) : List (Change ρ) := changes.foldl modify []

abbrev Store (ρ : Type) := Text → Text → Option ρ

def Store.write (store : Store ρ) (entity key : Text) (row : Option ρ) : Store ρ :=
  fun e k => if e = entity ∧ k = key then row else store e k

def Change.effect (change : Change ρ) : Option ρ :=
  if change.operation = 'D' then none else some change.row

def Change.fits (change : Change ρ) (found : Option ρ) : Bool :=
  change.operation = 'C' && found.isNone ||
    (change.operation = 'U' || change.operation = 'D') && found.isSome

def apply (store : Store ρ) (change : Change ρ) : Option (Store ρ) :=
  if change.fits (store change.entity change.key) then
    some (store.write change.entity change.key change.effect)
  else none

def replay (store : Store ρ) (changes : List (Change ρ)) : Option (Store ρ) :=
  changes.foldlM apply store

def seen [Inhabited ρ] (store : Store ρ) (mt_delta : List (Change ρ)) (entity key : Text) :
    Option ρ :=
  if operation_of mt_delta entity key = 'D' then none
  else if operation_of mt_delta entity key = 'C' ∨ operation_of mt_delta entity key = 'U' then
    some (row_of mt_delta entity key)
  else store entity key

section entries

variable {delta pre post : List (Change ρ)} {entity key e k : Text} {held change : Change ρ}

def entry (delta : List (Change ρ)) (entity key : Text) : Option (Change ρ) :=
  delta.find? fun change => change.isAt entity key

theorem isAt_iff : held.isAt entity key = true ↔ held.entity = entity ∧ held.key = key := by
  rw [Change.isAt,Bool.and_eq_true,decide_eq_true_eq,decide_eq_true_eq]

def Change.place (change : Change ρ) : Text × Text := (change.entity,change.key)

theorem isAt_place : held.isAt entity key = true ↔ held.place = (entity,key) := by
  rw [isAt_iff,Change.place,Prod.mk.injEq]

theorem entry_cases (delta : List (Change ρ)) (entity key : Text) :
    entry delta entity key = none ∧ index_of delta entity key = 0 ∧
        (∀ change ∈ delta,change.isAt entity key = false) ∨
      ∃ pre held post,delta = pre ++ held :: post ∧ held.isAt entity key = true ∧
        (∀ change ∈ pre,change.isAt entity key = false) ∧
        entry delta entity key = some held ∧ index_of delta entity key = pre.length + 1 := by
  induction delta with
  | nil => exact .inl ⟨rfl,rfl,nofun⟩
  | cons change delta ih =>
    rw [entry,index_of,List.find?_cons,List.findIdx?_cons]
    cases hat : change.isAt entity key with
    | true => exact .inr ⟨[],change,delta,rfl,hat,nofun,rfl,rfl⟩
    | false =>
      rcases ih with ⟨hnone,hindex,hall⟩ | ⟨pre,held,post,rfl,hheld,hpre,hentry,hindex⟩
      · refine .inl ⟨hnone,?_,?_⟩
        · rw [index_of] at hindex
          cases hidx : delta.findIdx? fun change => change.isAt entity key with
          | none => rfl
          | some i =>
            rw [hidx] at hindex
            exact absurd hindex (Nat.succ_ne_zero i)
        · intro c hc
          rcases List.mem_cons.mp hc with rfl | hc
          · exact hat
          · exact hall c hc
      · refine .inr ⟨change :: pre,held,post,rfl,hheld,?_,hentry,?_⟩
        · intro c hc
          rcases List.mem_cons.mp hc with rfl | hc
          · exact hat
          · exact hpre c hc
        · rw [index_of] at hindex
          cases hidx : (pre ++ held :: post).findIdx? fun change => change.isAt entity key with
          | none =>
            rw [hidx] at hindex
            exact absurd hindex (Nat.succ_ne_zero _).symm
          | some i =>
            rw [hidx] at hindex
            exact congrArg (· + 1) hindex

theorem operation_of_eq (delta : List (Change ρ)) (entity key : Text) :
    operation_of delta entity key = ((entry delta entity key).map Change.operation).getD ' ' := by
  rw [operation_of]
  rcases entry_cases delta entity key with ⟨hnone,hindex,_⟩ | ⟨pre,held,post,rfl,_,_,hentry,hindex⟩
  · rw [hnone,hindex]
    rfl
  · simp [hentry,hindex]

theorem row_of_eq [Inhabited ρ] (delta : List (Change ρ)) (entity key : Text) :
    row_of delta entity key = ((entry delta entity key).map Change.row).getD default := by
  rw [row_of]
  rcases entry_cases delta entity key with ⟨hnone,hindex,_⟩ | ⟨pre,held,post,rfl,_,_,hentry,hindex⟩
  · rw [hnone,hindex]
    rfl
  · simp [hentry,hindex]

def merged (held change : Change ρ) : Option (Change ρ) :=
  if held.operation = 'C' ∧ change.operation = 'D' then none
  else if held.operation = 'D' ∧ change.operation = 'C' then
    some {held with operation := 'U',row := change.row}
  else
    some {held with
      operation := if held.operation ≠ 'C' then change.operation else held.operation
      row := if change.operation ≠ 'D' then change.row else held.row}

theorem merged_place {new : Change ρ} (h : merged held change = some new) :
    new.place = held.place := by
  rw [merged] at h
  split at h
  · exact nomatch h
  split at h
  · obtain rfl := Option.some.inj h
    rfl
  · obtain rfl := Option.some.inj h
    rfl

theorem modify_cases (delta : List (Change ρ)) (change : Change ρ) :
    entry delta change.entity change.key = none ∧ modify delta change = delta ++ [change] ∧
        (∀ c ∈ delta,c.place ≠ change.place) ∨
      ∃ pre held post,delta = pre ++ held :: post ∧ held.place = change.place ∧
        (∀ c ∈ pre,c.place ≠ change.place) ∧ entry delta change.entity change.key = some held ∧
        modify delta change = pre ++ (merged held change).toList ++ post := by
  have hplace {l : List (Change ρ)} (h : ∀ c ∈ l,c.isAt change.entity change.key = false) :
      ∀ c ∈ l,c.place ≠ change.place := by
    intro c hc heq
    have hat := (isAt_place).mpr heq
    rw [h c hc] at hat
    exact nomatch hat
  rcases entry_cases delta change.entity change.key with
    ⟨hnone,hindex,hall⟩ | ⟨pre,held,post,rfl,hheld,hpre,hentry,hindex⟩
  · refine .inl ⟨hnone,?_,hplace hall⟩
    rw [modify,hindex]
    rfl
  · refine .inr ⟨pre,held,post,rfl,(isAt_place).mp hheld,hplace hpre,hentry,?_⟩
    rw [modify,hindex,merged]
    simp only [Nat.succ_ne_zero,if_false,Nat.add_sub_cancel]
    rw [List.getElem?_append_right (Nat.le_refl _),Nat.sub_self,List.getElem?_cons_zero]
    dsimp only
    split
    · rw [List.eraseIdx_append_of_length_le (Nat.le_refl _),Nat.sub_self]
      simp
    split
    · rw [List.set_append_right _ _ (Nat.le_refl _),Nat.sub_self]
      simp
    · rw [List.set_append_right _ _ (Nat.le_refl _),Nat.sub_self]
      simp

theorem nodup_modify (hnodup : (delta.map Change.place).Nodup) (change : Change ρ) :
    ((modify delta change).map Change.place).Nodup := by
  rcases modify_cases delta change with ⟨_,hmodify,hnew⟩ | ⟨pre,held,post,rfl,_,_,_,hmodify⟩
  · rw [hmodify,List.map_append,List.map_singleton,List.nodup_append_comm]
    refine List.nodup_cons.mpr ⟨?_,hnodup⟩
    intro hmem
    obtain ⟨c,hc,heq⟩ := List.mem_map.mp hmem
    exact hnew c hc heq
  · rw [hmodify]
    cases hmerged : merged held change with
    | none =>
      refine hnodup.sublist (List.Sublist.map _ ?_)
      simp
    | some new =>
      rw [Option.toList_some,List.map_append,List.map_append,List.map_singleton,merged_place hmerged]
      simpa using hnodup

theorem entry_append (l r : List (Change ρ)) (e k : Text) :
    entry (l ++ r) e k = (entry l e k).or (entry r e k) := List.find?_append

theorem entry_none (h : ∀ c ∈ delta,c.place ≠ (e,k)) : entry delta e k = none := by
  rw [entry,List.find?_eq_none]
  intro c hc hat
  exact h c hc ((isAt_place).mp hat)

theorem entry_mem (hnodup : (delta.map Change.place).Nodup) (h : change ∈ delta) :
    entry delta change.entity change.key = some change := by
  induction delta with
  | nil => exact absurd h List.not_mem_nil
  | cons c delta ih =>
    rw [List.map_cons,List.nodup_cons] at hnodup
    rw [entry,List.find?_cons]
    rcases List.mem_cons.mp h with rfl | h
    · rw [(isAt_place).mpr rfl]
    · have hne : c.isAt change.entity change.key = false := by
        rw [Bool.eq_false_iff]
        intro hat
        exact hnodup.1 ((isAt_place).mp hat ▸ List.mem_map_of_mem h)
      rw [hne]
      exact ih hnodup.2 h

def next : Option (Change ρ) → Change ρ → Option (Change ρ)
  | none,change => some change
  | some held,change => merged held change

theorem entry_singleton (change : Change ρ) (e k : Text) :
    entry [change] e k = if change.isAt e k then some change else none := by
  rw [entry,List.find?_singleton]

theorem entry_modify (hnodup : (delta.map Change.place).Nodup) (change : Change ρ) (e k : Text) :
    entry (modify delta change) e k =
      if change.isAt e k then next (entry delta e k) change else entry delta e k := by
  rcases modify_cases delta change with ⟨hnone,hmodify,_⟩ | ⟨pre,held,post,rfl,hheld,hpre,hentry,hmodify⟩
  · rw [hmodify,entry_append,entry_singleton]
    split
    · rename_i hat
      obtain ⟨rfl,rfl⟩ := (isAt_iff).mp hat
      rw [hnone]
      rfl
    · rw [Option.or_none]
  · rw [hmodify,entry_append,entry_append]
    split
    · rename_i hat
      obtain ⟨rfl,rfl⟩ := (isAt_iff).mp hat
      rw [entry_none hpre,hentry,Option.none_or,next]
      cases hmerged : merged held change with
      | none =>
        have hpost : ∀ c ∈ post,c.place ≠ (change.entity,change.key) := by
          intro c hc heq
          rw [List.map_append,List.map_cons] at hnodup
          have hnot := (List.nodup_cons.mp (List.Nodup.of_append_right hnodup)).1
          exact hnot (List.mem_map.mpr ⟨c,hc,heq.trans hheld.symm⟩)
        rw [Option.toList_none,entry_none hpost]
        rfl
      | some new =>
        rw [Option.toList_some,entry_singleton,
          if_pos ((isAt_place).mpr ((merged_place hmerged).trans hheld)),Option.some_or]
    · rename_i hat
      have hne : (e,k) ≠ held.place := fun heq => hat ((isAt_place).mpr (hheld.symm.trans heq.symm))
      have hother {c : Change ρ} (hc : c.place = held.place) : entry [c] e k = none := by
        rw [entry_singleton,if_neg fun h => hne (((isAt_place).mp h).symm.trans hc)]
      have hmerged : entry (merged held change).toList e k = none := by
        cases hmerged : merged held change with
        | none => rfl
        | some new => exact hother (merged_place hmerged)
      rw [hmerged,Option.or_none,← List.singleton_append,entry_append,entry_append,hother rfl,Option.none_or]

theorem entry_foldl (hnodup : (delta.map Change.place).Nodup) (changes : List (Change ρ))
    (e k : Text) : ((changes.foldl modify delta).map Change.place).Nodup ∧
      entry (changes.foldl modify delta) e k =
        (changes.filter fun c => c.isAt e k).foldl next (entry delta e k) := by
  induction changes generalizing delta with
  | nil => exact ⟨hnodup,rfl⟩
  | cons change changes ih =>
    obtain ⟨hfinal,hentry⟩ := ih (nodup_modify hnodup change)
    refine ⟨hfinal,?_⟩
    rw [List.foldl_cons,hentry,entry_modify hnodup]
    cases hat : change.isAt e k with
    | true => rw [if_pos rfl,List.filter_cons,if_pos hat,List.foldl_cons]
    | false => rw [if_neg Bool.false_ne_true,List.filter_cons,if_neg (Bool.eq_false_iff.mp hat)]

theorem nodup_start : (([] : List (Change ρ)).map Change.place).Nodup := List.nodup_nil

theorem recorded_nodup (changes : List (Change ρ)) :
    ((recorded changes).map Change.place).Nodup :=
  (entry_foldl nodup_start changes [] []).1

theorem entry_recorded (changes : List (Change ρ)) (e k : Text) :
    entry (recorded changes) e k = entry (recorded (changes.filter fun c => c.isAt e k)) e k := by
  rw [recorded,recorded,(entry_foldl nodup_start changes e k).2,
    (entry_foldl nodup_start (changes.filter _) e k).2,List.filter_filter]
  simp only [Bool.and_self]

end entries

section replaying

variable {store after base : Store ρ} {change held : Change ρ} {row now : Option ρ}

theorem write_at (store : Store ρ) (change : Change ρ) (row : Option ρ) (e k : Text) :
    store.write change.entity change.key row e k =
      if change.isAt e k then row else store e k := by
  rw [Store.write]
  refine if_congr ?_ rfl rfl
  rw [isAt_iff,eq_comm,@eq_comm _ k]

def Agrees (row : Option ρ) : Option (Change ρ) → Option ρ → Prop
  | none,now => now = row
  | some held,now => held.fits row = true ∧ now = held.effect

theorem fits_cases (h : change.fits row = true) :
    change.operation = 'C' ∧ row = none ∨
      (change.operation = 'U' ∨ change.operation = 'D') ∧ row.isSome = true := by
  simpa [Change.fits] using h

theorem Agrees.next {found : Option (Change ρ)} (h : Agrees row found now)
    (hfits : change.fits now = true) : Agrees row (next found change) change.effect := by
  cases found with
  | none =>
    obtain rfl : now = row := h
    exact ⟨hfits,rfl⟩
  | some held =>
    obtain ⟨hheld,rfl⟩ : held.fits row = true ∧ now = held.effect := h
    rw [Buffer.next,merged]
    rcases fits_cases hheld with ⟨hop,rfl⟩ | ⟨hop | hop,hrow⟩
    -- a create: the key has a row since, so an update or a delete comes
    · rcases fits_cases hfits with ⟨_,hnone⟩ | ⟨hchange | hchange,_⟩
      · simp [Change.effect,hop] at hnone
      · simp [hop,hchange,Agrees,Change.effect,Change.fits]
      · simp [hop,hchange,Agrees,Change.effect]
    -- an update: likewise
    · rcases fits_cases hfits with ⟨_,hnone⟩ | ⟨hchange | hchange,_⟩
      · simp [Change.effect,hop] at hnone
      · simp [hop,hchange,Agrees,Change.effect,Change.fits,hrow]
      · simp [hop,hchange,Agrees,Change.effect,Change.fits,hrow]
    -- a delete: only a create can follow
    · rcases fits_cases hfits with ⟨hchange,_⟩ | ⟨_,hsome⟩
      · simp [hop,hchange,Agrees,Change.effect,Change.fits,hrow]
      · simp [Change.effect,hop] at hsome

theorem apply_some (h : apply store change = some after) :
    change.fits (store change.entity change.key) = true ∧
      after = store.write change.entity change.key change.effect := by
  rw [apply] at h
  split at h
  · exact ⟨‹_›,(Option.some.inj h).symm⟩
  · exact nomatch h

theorem replay_agrees {delta : List (Change ρ)} (hnodup : (delta.map Change.place).Nodup)
    (hagrees : ∀ e k,Agrees (base e k) (entry delta e k) (store e k)) (changes : List (Change ρ))
    (h : replay store changes = some after) (e k : Text) :
    Agrees (base e k) (entry (changes.foldl modify delta) e k) (after e k) := by
  induction changes generalizing delta store with
  | nil =>
    obtain rfl := Option.some.inj h
    exact hagrees e k
  | cons change changes ih =>
    rw [replay,List.foldlM_cons] at h
    obtain ⟨next,hnext,hrest⟩ := Option.bind_eq_some_iff.mp h
    obtain ⟨hfits,rfl⟩ := apply_some hnext
    refine ih (nodup_modify hnodup change) (fun e k => ?_) hrest
    rw [entry_modify hnodup,write_at]
    split
    · rename_i hat
      obtain ⟨rfl,rfl⟩ := isAt_iff.mp hat
      exact (hagrees _ _).next hfits
    · exact hagrees e k

theorem replay_places (order : List (Change ρ)) (hnodup : (order.map Change.place).Nodup)
    (hfits : ∀ c ∈ order,c.fits (base c.entity c.key) = true) :
    ∃ after,replay base order = some after ∧ (∀ c ∈ order,after c.entity c.key = c.effect) ∧
      ∀ e k,(∀ c ∈ order,c.place ≠ (e,k)) → after e k = base e k := by
  induction order generalizing base with
  | nil => exact ⟨base,rfl,nofun,fun _ _ _ => rfl⟩
  | cons change order ih =>
    rw [List.map_cons,List.nodup_cons] at hnodup
    have hother : ∀ c ∈ order,¬change.isAt c.entity c.key = true := by
      intro c hc hat
      exact hnodup.1 (isAt_place.mp hat ▸ List.mem_map_of_mem hc)
    have hrest : ∀ c ∈ order,
        c.fits (base.write change.entity change.key change.effect c.entity c.key) = true := by
      intro c hc
      rw [write_at,if_neg (hother c hc)]
      exact hfits c (List.mem_cons_of_mem _ hc)
    obtain ⟨after,hafter,hheld,hfree⟩ := ih hnodup.2 hrest
    refine ⟨after,?_,?_,?_⟩
    · rw [replay,List.foldlM_cons,apply,if_pos (hfits change List.mem_cons_self)]
      exact hafter
    · intro c hc
      rcases List.mem_cons.mp hc with rfl | hc
      · rw [hfree c.entity c.key fun d hd heq => hnodup.1 (List.mem_map.mpr ⟨d,hd,heq⟩),write_at,
          if_pos (isAt_place.mpr rfl)]
      · exact hheld c hc
    · intro e k hne
      rw [hfree e k fun c hc => hne c (List.mem_cons_of_mem _ hc),write_at,
        if_neg fun hat => hne change List.mem_cons_self (isAt_place.mp hat)]

theorem Agrees.seen [Inhabited ρ] {delta : List (Change ρ)} {e k : Text}
    (h : Agrees (base e k) (entry delta e k) now) : seen base delta e k = now := by
  rw [Buffer.seen,operation_of_eq,row_of_eq]
  cases hentry : entry delta e k with
  | none =>
    rw [hentry] at h
    simpa using h.symm
  | some held =>
    rw [hentry] at h
    obtain ⟨hfits,rfl⟩ := h
    rcases fits_cases hfits with ⟨hop,_⟩ | ⟨hop | hop,_⟩
    · simp [hop,Change.effect]
    · simp [hop,Change.effect]
    · simp [hop,Change.effect]

end replaying

theorem delta_replays [Inhabited ρ] (base after : Store ρ) (changes : List (Change ρ))
    (h : replay base changes = some after) :
    ((recorded changes).map Change.place).Nodup ∧
    (∀ order,order.Perm (recorded changes) → replay base order = some after) ∧
    (∀ entity key,
      operation_of (recorded changes) entity key =
        operation_of (recorded (changes.filter fun c => c.isAt entity key)) entity key ∧
      row_of (recorded changes) entity key =
        row_of (recorded (changes.filter fun c => c.isAt entity key)) entity key) ∧
    (∀ entity key,seen base (recorded changes) entity key = after entity key) ∧
    (∀ entity key,
      operation_of (discard (recorded changes)) entity key = ' ' ∧
      row_of (discard (recorded changes)) entity key = default ∧
      seen base (discard (recorded changes)) entity key = base entity key) ∧
    count (discard (recorded changes)) = 0 := by
  have hnodup := recorded_nodup changes
  have hagrees : ∀ e k,Agrees (base e k) (entry (recorded changes) e k) (after e k) :=
    replay_agrees nodup_start (fun _ _ => rfl) changes h
  refine ⟨hnodup,?_,?_,fun e k => (hagrees e k).seen,fun _ _ => ⟨rfl,rfl,rfl⟩,rfl⟩
  · intro order hperm
    have horder : (order.map Change.place).Nodup := (hperm.map _).nodup_iff.mpr hnodup
    have hheld : ∀ c ∈ order,c.fits (base c.entity c.key) = true ∧
        after c.entity c.key = c.effect := by
      intro c hc
      have hc' := hagrees c.entity c.key
      rw [entry_mem hnodup (hperm.mem_iff.mp hc)] at hc'
      exact hc'
    obtain ⟨saved,hsaved,heffect,hfree⟩ := replay_places order horder fun c hc => (hheld c hc).1
    rw [hsaved]
    congr 1
    funext e k
    by_cases hplace : ∃ c ∈ order,c.place = (e,k)
    · obtain ⟨c,hc,heq⟩ := hplace
      obtain ⟨rfl,rfl⟩ := Prod.mk.inj heq
      exact (heffect c hc).trans (hheld c hc).2.symm
    · have hnone : ∀ c ∈ order,c.place ≠ (e,k) := fun c hc heq => hplace ⟨c,hc,heq⟩
      have hbase := hagrees e k
      rw [entry_none fun c hc => hnone c (hperm.mem_iff.mpr hc)] at hbase
      exact (hfree e k hnone).trans hbase.symm
  · intro entity key
    rw [operation_of_eq,operation_of_eq,row_of_eq,row_of_eq,entry_recorded changes]
    exact ⟨rfl,rfl⟩

theorem delta_replays_travel :
    let base : Store Nat := fun entity key => if (entity,key) = (['t'],['2']) then some 7 else none
    let changes : List (Change Nat) :=
      [⟨['t'],['1'],'C',1⟩,⟨['t'],['2'],'D',0⟩,⟨['t'],['1'],'U',2⟩,⟨['t'],['2'],'C',8⟩]
    replay base (recorded changes).reverse = replay base changes ∧
      seen base (recorded changes) ['t'] ['1'] = some 2 := by
  obtain ⟨_,horder,_,hseen,_⟩ := delta_replays
    (fun entity key => if (entity,key) = (['t'],['2']) then some 7 else none) _
    [⟨['t'],['1'],'C',1⟩,⟨['t'],['2'],'D',0⟩,⟨['t'],['1'],'U',2⟩,⟨['t'],['2'],'C',8⟩] rfl
  exact ⟨horder _ (List.reverse_perm _),hseen _ _⟩

end OpenSteamgate.Buffer
