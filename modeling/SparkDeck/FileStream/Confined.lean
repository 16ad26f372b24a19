import SparkDeck.FileStream.Receive

/-!
# The receiver is confined

Where the links of a stream are `Tame`, `_receive_file_stream` changes nothing outside
`stage/root_name`, whether it accepts or raises, and what it accepts resolves inside (`confined`).
The lexical check of the targets does not see to that: a `..` after a link leads to the parent of
where the link leads, and three links are enough to leave the staging directory (`escaped`).

`stroll` follows a path by name through the links that a stream has put so far, from the staging
directory, and goes astray where it takes `..` at the staging directory or another name than the
root there. `walk_stroll` says that the system is led the same way; `Inv` is what every step keeps.
-/

namespace SparkDeck.FileStream

open Posix Effect Function

/-! ## Strolls -/

inductive Stroll where
  /-- Relative to the staging directory. -/
  | at (l : Loc String)
  | astray
  | loop
  deriving DecidableEq

/-- Below the root, if it ends. -/
def Stroll.inside : Stroll → Bool
  | .at [] => false
  | .at (_ :: _) => true
  | .astray => false
  | .loop => true

/-- The links that a stream has put, and their targets. -/
abbrev Table := Loc String → Option (List (Comp String))

def strollWith (t : Table) (root : String) (follow : Loc String → List (Comp String) → Stroll) :
    Loc String → List (Comp String) → Stroll
  | l, [] => .at l
  | [], .up :: _ => .astray
  | _ :: l, .up :: cs => strollWith t root follow l cs
  | [], .name n :: cs => if n = root then strollWith t root follow [root] cs else .astray
  | m :: l, .name n :: cs =>
    match t (n :: m :: l) with
    | some target => follow (m :: l) (target ++ cs)
    | none => strollWith t root follow (n :: m :: l) cs

/-- Follow a path from a place below the staging directory, through at most so many links. -/
def stroll (t : Table) (root : String) : ℕ → Loc String → List (Comp String) → Stroll
  | 0 => strollWith t root fun _ _ => .loop
  | hops + 1 => strollWith t root (stroll t root hops)

/-- Put one after another, the directory and the target of every link are inside, and so are all
targets in the end, whichever symbolic links the system refuses to make. -/
def Tame (sys : Sys) (root : String) : Table → List Link → Prop
  | t, [] => ∀ l target, t l = some target → ∀ hops, (stroll t root hops l.tail target).inside
  | t, link :: links =>
    match link.destination with
    | [] => True
    | n :: up =>
      match stroll t root sys.hops [] (names up) with
      | .at (m :: l) =>
        (stroll t root sys.deep [] (names up ++ comps (parts link.target))).inside ∧
          Tame sys root t links ∧ (link.type = .symlink →
            Tame sys root (update t (n :: m :: l) (some (comps (parts link.target))))
              links)
      | .loop => True
      | _ => False

/-- The link of an entry whose header has `size` bytes, and the bytes after the entry. -/
def frame (sys : Sys) (root : String) (size : ℕ) (b : Bytes) : Option (List Link × Bytes) :=
  match sys.loads (b.take size) with
  | .dict entry =>
    match entryPath entry root with
    | .ok path =>
      match body entry path root with
      | .ok .directory => some ([], b.drop size)
      | .ok (.link type target) => some ([⟨path.reverse, target, type⟩], b.drop size)
      | .ok (.file fileSize _) => some ([], (b.drop size).drop (fileSize + digestSize))
      | .error _ => none
    | .error _ => none
  | _ => none

/-- The links of at most so many entries. -/
def linksIn (sys : Sys) (root : String) : ℕ → Bytes → List Link
  | 0, _ => []
  | left + 1, b =>
    if unpack (b.take 4) = 0 then []
    else match frame sys root (unpack (b.take 4)) (b.drop 4) with
      | some (links, rest) => links ++ linksIn sys root left rest
      | none => []

/-- The links of a stream, in their order. -/
def streamLinks (sys : Sys) (root : String) (b : Bytes) : List Link :=
  linksIn sys root maxEntries (b.drop magic.length)

section Stroll

variable {t : Table} {root : String} {follow : Loc String → List (Comp String) → Stroll}
  {cs cs' : List (Comp String)} {l l' : Loc String} {hops : ℕ}

theorem strollWith_append_astray
    (hf : ∀ l cs, follow l cs = .astray → follow l (cs ++ cs') = .astray) :
    ∀ (cs : List (Comp String)) (l : Loc String), strollWith t root follow l cs = .astray →
      strollWith t root follow l (cs ++ cs') = .astray
  | [], _, h => by cases h
  | .up :: _, [], _ => rfl
  | .up :: cs, _ :: l, h => strollWith_append_astray hf cs l h
  | .name n :: cs, [], h => by
    rw [List.cons_append, strollWith] at *
    split
    case isTrue hn =>
      rw [if_pos hn] at h
      exact strollWith_append_astray hf cs [root] h
    case isFalse => rfl
  | .name n :: cs, m :: l, h => by
    rw [List.cons_append, strollWith] at *
    split
    case h_1 target ht =>
      rw [ht] at h
      have := hf _ _ h
      rwa [List.append_assoc] at this
    case h_2 ht =>
      rw [ht] at h
      exact strollWith_append_astray hf cs (n :: m :: l) h

theorem stroll_append_astray : ∀ {hops : ℕ} {l : Loc String} {cs : List (Comp String)},
    stroll t root hops l cs = .astray → stroll t root hops l (cs ++ cs') = .astray
  | 0, l, cs, h => strollWith_append_astray (fun _ _ h => by cases h) cs l h
  | _ + 1, l, cs, h => strollWith_append_astray (fun _ _ => stroll_append_astray) cs l h

theorem strollWith_append_at {P : Stroll → Prop}
    (hf : ∀ l cs, follow l cs = .at l' → P (follow l (cs ++ cs')))
    (hend : P (strollWith t root follow l' cs')) :
    ∀ (cs : List (Comp String)) (l : Loc String), strollWith t root follow l cs = .at l' →
      P (strollWith t root follow l (cs ++ cs'))
  | [], l, h => by
    have hl : l = l' := by simpa [strollWith] using h
    rw [hl]
    exact hend
  | .up :: _, [], h => by cases h
  | .up :: cs, _ :: l, h => strollWith_append_at hf hend cs l h
  | .name n :: cs, [], h => by
    rw [List.cons_append, strollWith] at *
    split
    case isTrue hn =>
      rw [if_pos hn] at h
      exact strollWith_append_at hf hend cs [root] h
    case isFalse hn =>
      rw [if_neg hn] at h
      cases h
  | .name n :: cs, m :: l, h => by
    rw [List.cons_append, strollWith] at *
    split
    case h_1 target ht =>
      rw [ht] at h
      have := hf _ _ h
      rwa [List.append_assoc] at this
    case h_2 ht =>
      rw [ht] at h
      exact strollWith_append_at hf hend cs (n :: m :: l) h

/-- From where a part of a path ends, the stroll goes on with the rest. -/
theorem stroll_append_at : ∀ {hops : ℕ} {l : Loc String} {cs : List (Comp String)},
    stroll t root hops l cs = .at l' →
      ∃ k, stroll t root hops l (cs ++ cs') = stroll t root k l' cs'
  | 0, l, cs, h =>
    strollWith_append_at (P := fun s => ∃ k, s = stroll t root k l' cs')
      (fun _ _ h => by cases h) ⟨0, rfl⟩ cs l h
  | hops + 1, l, cs, h =>
    strollWith_append_at (P := fun s => ∃ k, s = stroll t root k l' cs')
      (fun _ _ h => stroll_append_at h) ⟨hops + 1, rfl⟩ cs l h

/-- A path of names from the root, where there is no link. -/
theorem stroll_names {p : Loc String} (hp : [root] <:+ p) :
    stroll (fun _ => none) root hops [] (names p) = .at p := by
  obtain ⟨q, rfl⟩ := hp
  have hgo : ∀ (follow : Loc String → List (Comp String) → Stroll) (ns : List String)
      (m : String) (l : Loc String),
      strollWith (fun _ => none) root follow (m :: l) (ns.map .name) = .at (ns.reverse ++ m :: l) := by
    intro follow ns
    induction ns with
    | nil =>
      intro m l
      rfl
    | cons n ns ih =>
      intro m l
      rw [List.map_cons, strollWith, ih, List.reverse_cons, List.append_assoc]
      rfl
  have hnames : names (q ++ [root]) = .name root :: q.reverse.map .name := by
    simp [names]
  have hboth : ∀ follow, strollWith (fun _ => none) root follow [] (names (q ++ [root])) =
      .at (q ++ [root]) := by
    intro follow
    rw [hnames, strollWith, if_pos rfl, hgo, List.reverse_reverse]
  cases hops <;> exact hboth _

end Stroll

/-! ## The invariant -/

section Inv

variable (stage : Loc String) (root : String)

/-- `stage/root_name` or below. -/
def Inside (l : Loc String) : Prop := root :: stage <:+ l

/-- The links below the root are those of `t`. -/
structure Linked (t : Table) (d : Disk String FileData) : Prop where
  found : ∀ l, [root] <:+ l → ∀ target, d.node (l ++ stage) = some (.link target) →
    target.absolute = false ∧ t l = some target.comps
  there : ∀ l cs, t l = some cs → [root] <:+ l ∧ l ≠ [root] ∧
    d.node (l ++ stage) = some (.link ⟨false, cs⟩)

/-- Since `d₀`, only what is inside was changed, and it shares no inode with what is outside. -/
structure Inv (d₀ : Disk String FileData) (t : Table) (d : Disk String FileData) : Prop where
  outside : ∀ l, ¬Inside stage root l → d.node l = d₀.node l
  data : ∀ i, i < d₀.next → d.data i = d₀.data i
  next : d₀.next ≤ d.next
  files : ∀ l i, Inside stage root l → d.node l = some (.file i) → d₀.next ≤ i
  linked : Linked stage root t d

variable {stage root} {t : Table} {d₀ d : Disk String FileData} {l l' : Loc String}
  {cs : List (Comp String)} {n : String} {hops : ℕ}

theorem inside_append {r : Loc String} (h : [root] <:+ r) : Inside stage root (r ++ stage) := by
  obtain ⟨q, rfl⟩ := h
  exact ⟨q, by simp⟩

theorem Inside.split (h : Inside stage root l) : ∃ r, [root] <:+ r ∧ l = r ++ stage := by
  obtain ⟨q, rfl⟩ := h
  exact ⟨q ++ [root], ⟨q, rfl⟩, by simp⟩

/-- A place that a stroll can be at. -/
def Good (root : String) (l : Loc String) : Prop := l = [] ∨ [root] <:+ l

theorem Good.tail (h : Good root (n :: l)) : Good root l := by
  rcases h with h | ⟨q, hq⟩
  · cases h
  · cases q with
    | nil =>
      obtain ⟨-, rfl⟩ := List.cons.inj hq
      exact Or.inl rfl
    | cons m q =>
      obtain ⟨-, rfl⟩ := List.cons.inj hq
      exact Or.inr ⟨q, rfl⟩

theorem Good.cons (h : Good root l) (hl : l ≠ []) : [root] <:+ n :: l :=
  (h.resolve_left hl).trans (List.suffix_cons n l)

/-- **The system is led as the stroll is**, if it does not go astray. -/
theorem walkWith_stroll (hlinked : Linked stage root t d)
    {follow : Loc String → List (Comp String) → Stroll}
    {wfollow : Loc String → List (Comp String) → Walk String}
    (hf : ∀ l cs, Good root l → follow l cs ≠ .astray →
      (∃ r, Good root r ∧ follow l cs = .at r ∧ wfollow (l ++ stage) cs = .at (r ++ stage)) ∨
        follow l cs = .loop ∧ wfollow (l ++ stage) cs = .loop) :
    ∀ (cs : List (Comp String)) (l : Loc String), Good root l →
      strollWith t root follow l cs ≠ .astray →
      (∃ r, Good root r ∧ strollWith t root follow l cs = .at r ∧
        walkWith d.node .lax wfollow (l ++ stage) cs = .at (r ++ stage)) ∨
      strollWith t root follow l cs = .loop ∧
        walkWith d.node .lax wfollow (l ++ stage) cs = .loop
  | [], l, hl, _ => Or.inl ⟨l, hl, by simp [strollWith], rfl⟩
  | .up :: _, [], _, h => absurd rfl h
  | .up :: cs, _ :: l, hl, h => walkWith_stroll hlinked hf cs l hl.tail h
  | .name n :: cs, l, hl, h => by
    -- At a link the stroll follows its target; everything else it passes.
    have hpass : ∀ target, d.node (n :: (l ++ stage)) = some (.link target) → [root] <:+ n :: l →
        target.absolute = false ∧ t (n :: l) = some target.comps :=
      fun target ht hr => hlinked.found (n :: l) hr target ht
    cases l with
    | nil =>
      rw [strollWith] at h ⊢
      split at h
      case isFalse => exact absurd rfl h
      case isTrue hn =>
        rw [if_pos hn]
        have ih := walkWith_stroll hlinked hf cs [root] (Or.inr (List.suffix_refl _)) h
        have hstep : walkWith d.node .lax wfollow ([] ++ stage) (.name n :: cs) =
            walkWith d.node .lax wfollow ([root] ++ stage) cs := by
          rw [hn] at hpass
          rw [walkWith, hn]
          split
          case h_1 target ht =>
            obtain ⟨-, htable⟩ := hpass target ht (List.suffix_refl _)
            exact absurd rfl (hlinked.there _ _ htable).2.1
          case h_2 => rfl
          case h_3 => rfl
          case h_4 => rfl
        rw [hstep]
        exact ih
    | cons m l =>
      have hr : [root] <:+ n :: m :: l := hl.cons (List.cons_ne_nil m l)
      rw [strollWith] at h ⊢
      split at h
      case h_1 target ht =>
        have hnode := (hlinked.there _ _ ht).2.2
        have hstep : walkWith d.node .lax wfollow (m :: l ++ stage) (.name n :: cs) =
            wfollow (m :: l ++ stage) (target ++ cs) := by
          rw [walkWith]
          rw [List.cons_append] at hnode
          rw [hnode]
          rfl
        rw [hstep]
        exact hf (m :: l) _ hl h
      case h_2 ht =>
        have ih := walkWith_stroll hlinked hf cs (n :: m :: l) (Or.inr hr) h
        have hstep : walkWith d.node .lax wfollow (m :: l ++ stage) (.name n :: cs) =
            walkWith d.node .lax wfollow (n :: m :: l ++ stage) cs := by
          rw [walkWith]
          split
          case h_1 target htarget =>
            rw [(hpass target htarget hr).2] at ht
            cases ht
          case h_2 => rfl
          case h_3 => rfl
          case h_4 => rfl
        rw [hstep]
        exact ih

theorem walk_stroll (hlinked : Linked stage root t d) : ∀ {hops : ℕ} {l : Loc String}
    {cs : List (Comp String)}, Good root l → stroll t root hops l cs ≠ .astray →
      (∃ r, Good root r ∧ stroll t root hops l cs = .at r ∧
        walk d.node .lax hops (l ++ stage) cs = .at (r ++ stage)) ∨
      stroll t root hops l cs = .loop ∧ walk d.node .lax hops (l ++ stage) cs = .loop
  | 0, l, cs, hl, h => walkWith_stroll hlinked (fun _ _ _ _ => Or.inr ⟨rfl, rfl⟩) cs l hl h
  | _ + 1, l, cs, hl, h =>
    walkWith_stroll hlinked (fun _ _ hl h => walk_stroll hlinked hl h) cs l hl h

/-- Where the system arrives, the stroll does. -/
theorem walk_at_stroll (hlinked : Linked stage root t d) {mode : Mode}
    (hs : stroll t root hops [] cs ≠ .astray) (h : walk d.node mode hops stage cs = .at l) :
    ∃ r, Good root r ∧ stroll t root hops [] cs = .at r ∧ l = r ++ stage := by
  have hlax : walk d.node .lax hops ([] ++ stage) cs = .at l := walk_lax h
  rcases walk_stroll hlinked (Or.inl rfl) hs with ⟨r, hr, hat, hw⟩ | ⟨-, hw⟩
  · rw [hlax] at hw
    exact ⟨r, hr, hat, Walk.at.inj hw⟩
  · cases hlax.symm.trans hw

/-! ## What a step keeps -/

variable {up : Loc String}

theorem place_walk (hl : d.place hops stage up n = .ok r₁) :
    walk d.node .kernel hops stage (names up) = .at r₁.1 := by
  unfold Disk.place at hl
  cases hd : d.directory hops stage (names up) with
  | error e =>
    rw [hd] at hl
    cases hl
  | ok l₁ =>
    rw [hd] at hl
    have hl₁ : l₁.1 = r₁.1 := by
      simp only [Except.bind] at hl
      split at hl
      · rw [← Except.ok.inj hl]
      · cases hl
    unfold Disk.directory at hd
    split at hd
    case h_1 l hw =>
      split at hd
      · rw [hw, ← hl₁, ← Except.ok.inj hd]
      · cases hd
    all_goals cases hd

section Put

variable {r : Loc String} {x : Node String} {hl : d.node (r ++ stage) = some .dir}
  {hn : d.node (n :: (r ++ stage)) = none} {hx : ∀ i, x = .file i → i < d.next}

theorem Inv.outside_put (h : Inv stage root d₀ t d) (hin : [root] <:+ n :: r)
    (hk : ¬Inside stage root l) : (d.put (r ++ stage) n x hl hn hx).node l = d₀.node l := by
  have hne : l ≠ n :: (r ++ stage) := by
    rintro rfl
    exact hk (inside_append (r := n :: r) hin)
  change update d.node _ _ l = _
  rw [update_of_ne hne]
  exact h.outside l hk

/-- A new directory or file inside. -/
theorem Inv.put (h : Inv stage root d₀ t d) (hin : [root] <:+ n :: r)
    (hlink : ∀ target, x ≠ .link target) (hfile : ∀ i, x = .file i → d₀.next ≤ i) :
    Inv stage root d₀ t (d.put (r ++ stage) n x hl hn hx) where
  outside _ hk := h.outside_put hin hk
  data := h.data
  next := h.next
  files k i hk hi := by
    rcases Disk.put_cases hi with ⟨-, he⟩ | hi
    · exact hfile i he.symm
    · exact h.files k i hk hi
  linked := by
    refine ⟨fun k hk target hi => ?_, fun k cs hk => ?_⟩
    · rcases Disk.put_cases hi with ⟨-, he⟩ | hi
      · exact absurd he.symm (hlink target)
      · exact h.linked.found k hk target hi
    · obtain ⟨hroot, hne, hnode⟩ := h.linked.there k cs hk
      exact ⟨hroot, hne, Disk.put_there hnode⟩

/-- A new symbolic link inside. -/
theorem Inv.putLink (h : Inv stage root d₀ t d) (hin : [root] <:+ n :: r) (hr : r ≠ [])
    {hx : ∀ i, Node.link ⟨false, cs⟩ = .file i → i < d.next} :
    Inv stage root d₀ (update t (n :: r) (some cs))
      (d.put (r ++ stage) n (.link ⟨false, cs⟩) hl hn hx) where
  outside _ hk := h.outside_put hin hk
  data := h.data
  next := h.next
  files k i hk hi := by
    rcases Disk.put_cases hi with ⟨-, he⟩ | hi
    · cases he
    · exact h.files k i hk hi
  linked := by
    refine ⟨fun k hk target hi => ?_, fun k cs' hk => ?_⟩
    · rcases Disk.put_cases hi with ⟨he, ht⟩ | hi
      · obtain rfl : k = n :: r := List.append_cancel_right (he.trans List.cons_append.symm)
        cases ht
        exact ⟨rfl, update_self ..⟩
      · have hne : k ≠ n :: r := by
          rintro rfl
          cases hn.symm.trans hi
        rw [update_of_ne hne]
        exact h.linked.found k hk target hi
    · by_cases hne : k = n :: r
      · subst hne
        rw [update_self] at hk
        cases Option.some.inj hk
        refine ⟨hin, fun he => hr (List.cons.inj he).2, ?_⟩
        exact update_self ..
      · rw [update_of_ne hne] at hk
        obtain ⟨hroot, hroot', hnode⟩ := h.linked.there k cs' hk
        exact ⟨hroot, hroot', Disk.put_there hnode⟩

end Put

theorem Inv.alloc (h : Inv stage root d₀ t d) {f : FileData} :
    Inv stage root d₀ t (d.alloc f) :=
  { h with
    data i hi := by
      change update d.data d.next _ i = _
      rw [update_of_ne (Nat.ne_of_lt (Nat.lt_of_lt_of_le hi h.next))]
      exact h.data i hi
    next := Nat.le_succ_of_le h.next
    linked := ⟨h.linked.found, h.linked.there⟩ }

theorem Inv.modify (h : Inv stage root d₀ t d) {i : ℕ} (hi : d₀.next ≤ i)
    {g : FileData → FileData} : Inv stage root d₀ t (d.modify i g) :=
  { h with
    data k hk := by
      change update d.data i _ k = _
      rw [update_of_ne (Nat.ne_of_lt (Nat.lt_of_lt_of_le hk hi))]
      exact h.data k hk
    linked := ⟨h.linked.found, h.linked.there⟩ }

/-- Where a new entry goes, if the path to it does not go astray. -/
theorem Inv.place (h : Inv stage root d₀ t d) {r₁} (hl : d.place hops stage up n = .ok r₁)
    (hs : stroll t root hops [] (names (n :: up)) ≠ .astray) :
    ∃ r, stroll t root hops [] (names up) = .at r ∧ r₁.1 = r ++ stage ∧ [root] <:+ n :: r := by
  have hup : stroll t root hops [] (names up) ≠ .astray := by
    intro ha
    rw [names_cons] at hs
    exact hs (stroll_append_astray ha)
  obtain ⟨r, hr, hat, he⟩ := walk_at_stroll h.linked hup (place_walk hl)
  refine ⟨r, hat, he, ?_⟩
  by_cases hnil : r = []
  · subst hnil
    obtain ⟨k, hk⟩ := @stroll_append_at _ _ [.name n] _ _ _ _ hat
    rw [names_cons, hk] at hs
    -- At the staging directory itself, only the root is not astray.
    have hn : n = root := by
      by_contra hne
      cases k <;> exact hs (by rw [stroll, strollWith, if_neg hne])
    rw [hn]
  · exact hr.cons hnil

/-! ## Calls -/

/-- The disk meets `I`, and the reader `G`. -/
def On (I : Disk String FileData → Prop) (G : Reader → Prop) (s : St) : Prop :=
  I s.disk ∧ G s.src

section Calls

variable {sys : Sys} {I J : Disk String FileData → Prop} {G : Reader → Prop} {b : Bytes}

theorem call_spec {α : Type} {op : Disk String FileData → Except Errno (α × Disk String FileData)}
    {Q : α → Disk String FileData → Prop} (h : ∀ d a d', I d → op d = .ok (a, d') → Q a d') :
    Spec (On I G) (call sys op) (fun a => On (Q a) G) (On I G) := by
  intro s hs
  unfold call
  split
  case h_1 a u hu =>
    split at hu
    case isTrue => cases hu
    case isFalse =>
      split at hu
      case h_1 a' d' hop =>
        cases hu
        exact ⟨h _ _ _ hs.1 hop, hs.2⟩
      case h_2 => cases hu
  case h_2 e u hu =>
    split at hu
    case isTrue =>
      cases hu
      exact hs
    case isFalse =>
      split at hu
      case h_1 => cases hu
      case h_2 =>
        cases hu
        exact hs

theorem query_spec {α : Type} {op : Disk String FileData → Except Errno α} {Q : α → Prop}
    (h : ∀ d a, I d → op d = .ok a → Q a) :
    Spec (On I G) (query sys op) (fun a s => On I G s ∧ Q a) (On I G) := by
  refine (call_spec (Q := fun a d => I d ∧ Q a) ?_).conseq (fun _ h => h) ?_ fun _ h => h
  · intro d a d' hI hop
    cases ho : op d with
    | error e =>
      rw [ho] at hop
      cases hop
    | ok a' =>
      rw [ho] at hop
      cases hop
      exact ⟨hI, h d a hI ho⟩
  · intro a s hs
    exact ⟨⟨hs.1.1, hs.2⟩, hs.1.2⟩

theorem raiseIf_spec {P : St → Prop} {R : St → Prop} {c : Prop} [Decidable c] {e : Err}
    (h : ∀ s, P s → R s) : Spec P (raiseIf c e) (fun _ s => P s ∧ ¬c) R :=
  Spec.ite (fun _ => Spec.throw h) fun hc => Spec.pure fun _ hs => ⟨hs, hc⟩

theorem checkCancel_spec : Spec (On I G) (checkCancel sys) (fun _ => On I G) (On I G) := by
  intro s hs
  unfold checkCancel
  split
  case h_1 a u hu | h_2 e u hu =>
    split at hu <;> cases hu
    exact hs

theorem readexactly_spec {size : ℕ} :
    Spec (On I fun r => r.rest = b) (readexactly size)
      (fun x => On I fun r => size ≤ b.length ∧ x = b.take size ∧ r.rest = b.drop size)
      (On I fun r => r.rest = b) := by
  rintro s ⟨hI, hb⟩
  by_cases hsize : size ≤ s.src.rest.length
  · obtain ⟨r, hr, hrest, -⟩ := Reader.readexactly_ok hsize
    have : readexactly size s = .ok (s.src.rest.take size) { s with src := r } := by
      unfold readexactly
      rw [hr]
    rw [this]
    rw [hb] at hsize hrest
    exact ⟨hI, hsize, by rw [hb], hrest⟩
  · have : readexactly size s =
        .error (.read ((Reader.ending s.src.chunks).getD .ended)) s := by
      unfold readexactly
      rw [Reader.readexactly_error (Nat.lt_of_not_le hsize)]
    rw [this]
    exact ⟨hI, hb⟩

theorem requireEof_spec : Spec (On I G) requireEof (fun _ => On I G) (On I G) := by
  intro s hs
  unfold requireEof
  split
  case h_1 a u hu | h_2 e u hu =>
    split at hu <;> cases hu
    exact hs

theorem received_spec : Spec (On I G) received (fun _ => On I G) (On I G) := fun _ hs => hs

end Calls

section Steps

variable {sys : Sys} {G : Reader → Prop}

theorem map_ok {ε α β : Type*} {x : Except ε α} {f : α → β} {y : β} (h : x.map f = .ok y) :
    ∃ a, x = .ok a ∧ f a = y := by
  cases x with
  | error e => cases h
  | ok a => exact ⟨a, rfl, Except.ok.inj h⟩

theorem osMkdir_spec (hs : stroll t root sys.hops [] (names (n :: up)) ≠ .astray) :
    Spec (On (Inv stage root d₀ t) G) (osMkdir sys stage up n)
      (fun _ => On (Inv stage root d₀ t) G) (On (Inv stage root d₀ t) G) := by
  refine call_spec fun d _ d' hI hop => ?_
  obtain ⟨_, hop, he⟩ := map_ok hop
  obtain ⟨⟨l, hdir, hnone⟩, hl, rfl⟩ := map_ok hop
  cases he
  obtain ⟨r, -, he, hin⟩ := hI.place hl hs
  subst he
  exact hI.put hin nofun fun _ h => by cases h

variable {p : Loc String}

theorem unlessDir_spec {I : Disk String FileData → Prop} {existOk : Bool} {e : Err} :
    Spec (On I G) (unlessDir sys stage existOk p e) (fun _ => On I G) (On I G) := by
  refine Spec.ite (fun _ => ?_) fun _ => Spec.throw fun _ h => h
  refine Spec.bind (query_spec (Q := fun _ => True) fun _ _ _ _ => trivial) fun x => ?_
  exact Spec.ite (fun _ => Spec.pure fun _ h => h.1) fun _ => Spec.throw fun _ h => h.1

/-- `mkdir` makes directories inside only. -/
theorem mkdirParents_spec : ∀ {p : Loc String} {existOk : Bool},
    (p ≠ [] → stroll t root sys.hops [] (names p) ≠ .astray) →
    Spec (On (Inv stage root d₀ t) G) (mkdirParents sys stage p existOk)
      (fun _ => On (Inv stage root d₀ t) G) (On (Inv stage root d₀ t) G)
  | [], existOk, _ => by
    rw [mkdirParents]
    exact Spec.ite (fun _ => Spec.pure fun _ h => h) fun _ => Spec.throw fun _ h => h
  | n :: up, existOk, hs => by
    have hs := hs (List.cons_ne_nil n up)
    have hup : up ≠ [] → stroll t root sys.hops [] (names up) ≠ .astray := by
      intro _ ha
      rw [names_cons] at hs
      exact hs (stroll_append_astray ha)
    rw [mkdirParents]
    refine Spec.tryCatch (osMkdir_spec hs) fun e => Spec.ite (fun _ => ?_) fun _ => unlessDir_spec
    refine Spec.bind (mkdirParents_spec hup) fun _ => ?_
    refine Spec.tryCatch (osMkdir_spec hs) fun e => Spec.ite (fun _ => ?_) fun _ => unlessDir_spec
    exact Spec.throw fun _ h => h

/-- Where there is no link, a path that begins with the root does not go astray. -/
theorem names_not_astray (hp : [root] <:+ p) :
    stroll (fun _ => none) root hops [] (names p) ≠ .astray := by
  rw [stroll_names hp]
  exact fun h => by cases h

theorem openDestination_spec (hs : stroll t root sys.hops [] (names (n :: up)) ≠ .astray) :
    Spec (On (Inv stage root d₀ t) G) (openDestination sys stage up n)
      (fun i => On (fun d => Inv stage root d₀ t d ∧ d₀.next ≤ i) G)
      (On (Inv stage root d₀ t) G) := by
  refine call_spec fun d i d' hI hop => ?_
  obtain ⟨⟨l, hdir, hnone⟩, hl, hop⟩ := map_ok hop
  cases hop
  obtain ⟨r, -, he, hin⟩ := hI.place hl hs
  subst he
  refine ⟨hI.alloc.put hin nofun fun i h => ?_, hI.next⟩
  cases h
  exact hI.next

theorem write_spec {i : ℕ} {data : Bytes} (hi : d₀.next ≤ i) :
    Spec (On (Inv stage root d₀ t) G) (write sys i data)
      (fun _ => On (Inv stage root d₀ t) G) (On (Inv stage root d₀ t) G) := by
  refine call_spec fun d _ d' hI hop => ?_
  cases hop
  exact hI.modify hi

theorem sync_spec {I : Disk String FileData → Prop} :
    Spec (On I G) (sync sys) (fun _ => On I G) (On I G) := by
  refine call_spec fun d _ d' hI hop => ?_
  cases hop
  exact hI

/-- A file inside has an inode of its own. -/
theorem Inv.fileAt (h : Inv stage root d₀ t d) {r : Loc String} (hr : [root] <:+ r) {i : ℕ}
    (hi : d.node (r ++ stage) = some (.file i)) : d₀.next ≤ i :=
  h.files _ i (inside_append hr) hi

theorem chmod_spec {mode : ℕ} (hs : stroll t root sys.hops [] (names p) ≠ .astray)
    (hne : stroll t root sys.hops [] (names p) ≠ .at []) :
    Spec (On (Inv stage root d₀ t) G) (chmod sys stage p mode)
      (fun _ => On (Inv stage root d₀ t) G) (On (Inv stage root d₀ t) G) := by
  refine call_spec fun d _ d' hI hop => ?_
  simp only [Disk.stat] at hop
  cases hw : walk d.node .kernel sys.hops stage (names p) with
  | «at» l =>
    obtain ⟨r, hr, hat, rfl⟩ := walk_at_stroll hI.linked hs hw
    rw [hw] at hop
    dsimp only at hop
    have hroot : [root] <:+ r := by
      refine hr.resolve_left ?_
      rintro rfl
      exact hne hat
    cases hx : d.node (r ++ stage) with
    | none =>
      rw [hx] at hop
      cases hop
    | some x =>
      rw [hx] at hop
      cases x with
      | file i =>
        cases hop
        exact hI.modify (hI.fileAt hroot hx)
      | dir | link target =>
        cases hop
        exact hI
  | missing | notDir | loop =>
    rw [hw] at hop
    cases hop

/-- A path is resolved to a place inside. -/
theorem resolve_spec {cs : List (Comp String)} {p : Prop}
    (hs : p → (stroll t root sys.deep [] cs).inside) :
    Spec (On (Inv stage root d₀ t) G) (resolve sys stage cs)
      (fun l s => On (Inv stage root d₀ t) G s ∧ (p → Inside stage root l))
      (On (Inv stage root d₀ t) G) := by
  refine query_spec fun d l hI hop hp => ?_
  replace hs := hs hp
  cases hw : walk d.node .strict sys.deep stage cs with
  | «at» l' =>
    rw [hw] at hop
    cases hop
    have hna : stroll t root sys.deep [] cs ≠ .astray := by
      intro ha
      rw [ha] at hs
      cases hs
    obtain ⟨r, hr, hat, rfl⟩ := walk_at_stroll hI.linked hna hw
    refine inside_append (hr.resolve_left ?_)
    rintro rfl
    rw [hat] at hs
    cases hs
  | missing | notDir | loop =>
    rw [hw] at hop
    cases hop

/-- The directory of a link that is put. -/
def Put (t : Table) (root : String) (hops : ℕ) (up r : Loc String) : Prop :=
  stroll t root hops [] (names up) = .at r ∧ r ≠ []

/-- A link is put in the directory that the stroll leads to. -/
theorem Inv.place_link (h : Inv stage root d₀ t d) {r₁} (hl : d.place hops stage up n = .ok r₁)
    (hs : (stroll t root hops [] (names up)).inside) :
    ∃ r, Put t root hops up r ∧ r₁.1 = r ++ stage ∧ [root] <:+ n :: r := by
  have hna : stroll t root hops [] (names up) ≠ .astray := by
    intro ha
    rw [ha] at hs
    cases hs
  obtain ⟨r, hr, hat, he⟩ := walk_at_stroll h.linked hna (place_walk hl)
  have hne : r ≠ [] := by
    rintro rfl
    rw [hat] at hs
    cases hs
  exact ⟨r, ⟨hat, hne⟩, he, hr.cons hne⟩

theorem osLink_spec {src up : Loc String} (hs : (stroll t root sys.hops [] (names up)).inside)
    (hsrc : (∃ r, Put t root sys.hops up r) → Inside stage root src) :
    Spec (On (Inv stage root d₀ t) G) (osLink sys stage src up n)
      (fun _ s => On (Inv stage root d₀ t) G s ∧ ∃ r, Put t root sys.hops up r)
      (On (Inv stage root d₀ t) G) := by
  refine (call_spec (Q := fun _ d => Inv stage root d₀ t d ∧ ∃ r, Put t root sys.hops up r)
    fun d _ d' hI hop => ?_).conseq (fun _ h => h) (fun _ _ h => ⟨⟨h.1.1, h.2⟩, h.1.2⟩)
    fun _ h => h
  simp only [Disk.link] at hop
  cases hf : d.fileAt src with
  | none =>
    rw [hf] at hop
    cases hop
  | some i =>
    have hi : d.node src = some (.file i.1) := by
      unfold Disk.fileAt at hf
      split at hf
      case h_1 j hj =>
        cases hf
        exact hj
      case h_2 => cases hf
    rw [hf] at hop
    obtain ⟨_, hop, he⟩ := map_ok hop
    obtain ⟨⟨l, hdir, hnone⟩, hl, rfl⟩ := map_ok hop
    cases he
    obtain ⟨r, hput, he, hin⟩ := hI.place_link hl hs
    subst he
    refine ⟨hI.put hin nofun fun k h => ?_, r, hput⟩
    cases h
    exact hI.files src i.1 (hsrc ⟨r, hput⟩) hi

theorem osSymlink_spec {target : String} (hs : (stroll t root sys.hops [] (names up)).inside) :
    Spec (On (Inv stage root d₀ t) G) (osSymlink sys stage target up n)
      (fun _ s => ∃ r, Put t root sys.hops up r ∧ On (Inv stage root d₀
        (update t (n :: r) (some (comps (parts target))))) G s)
      (On (Inv stage root d₀ t) G) := by
  refine (call_spec (Q := fun _ d => ∃ r, Put t root sys.hops up r ∧ Inv stage root d₀
    (update t (n :: r) (some (comps (parts target)))) d) fun d _ d' hI hop => ?_).conseq
    (fun _ h => h) (fun _ _ h => ?_) fun _ h => h
  · simp only [Disk.symlink] at hop
    obtain ⟨_, hop, he⟩ := map_ok hop
    obtain ⟨⟨l, hdir, hnone⟩, hl, rfl⟩ := map_ok hop
    cases he
    obtain ⟨r, hput, he, hin⟩ := hI.place_link hl hs
    subst he
    exact ⟨r, hput, hI.putLink hin hput.2⟩
  · obtain ⟨⟨r, hput, hI⟩, hG⟩ := h
    exact ⟨r, hput, hI, hG⟩

end Steps

/-! ## Entries -/

section Entries

variable {sys : Sys} {b : Bytes}

/-- Whatever may be read. -/
def anyReader : Reader → Prop := fun _ => True

theorem orAny {α : Type} {P : St → Prop} {m : M α} {Q : α → St → Prop}
    {I : Disk String FileData → Prop} {G : Reader → Prop} (h : Spec P m Q (On I G)) :
    Spec P m Q (On I anyReader) :=
  h.errs fun _ h => ⟨h.1, trivial⟩

theorem receivePayload_spec {inode : ℕ} (hi : d₀.next ≤ inode) :
    ∀ {fuel remaining : ℕ} {digest b : Bytes}, remaining ≤ fuel →
      Spec (On (Inv stage root d₀ t) fun r => r.rest = b)
        (receivePayload sys inode fuel remaining digest)
        (fun _ => On (Inv stage root d₀ t) fun r => r.rest = b.drop remaining)
        (On (Inv stage root d₀ t) anyReader)
  | 0, remaining, digest, b, hfuel => by
    obtain rfl := Nat.le_zero.mp hfuel
    exact Spec.pure fun s hs => by simpa using hs
  | fuel + 1, remaining, digest, b, hfuel => by
    rw [receivePayload]
    refine Spec.ite (fun h0 => ?_) fun hpos => ?_
    · subst h0
      exact Spec.pure fun s hs => by simpa using hs
    · refine Spec.bind (orAny checkCancel_spec) fun _ => ?_
      refine Spec.bind (orAny readexactly_spec) fun data => ?_
      -- So many bytes were read, and are taken off what remains.
      intro s hs
      obtain ⟨hsize, hdata, hrest⟩ := hs.2
      have hlen : data.length = min chunkBytes remaining := by
        rw [hdata, List.length_take]
        omega
      have hchunk : 0 < chunkBytes := by decide
      refine (Spec.bind (orAny (write_spec hi)) fun _ =>
        (receivePayload_spec hi (b := b.drop (min chunkBytes remaining)) ?_).conseq
          (fun _ h => h) (fun _ s h => ⟨h.1, ?_⟩) fun _ h => h) s ⟨hs.1, hrest⟩
      · omega
      · have h2 := h.2
        rw [List.drop_drop, hlen] at h2
        refine h2.trans (congrArg (List.drop · b) ?_)
        omega

theorem receiveFile_spec {size mode : ℕ} (hup : [root] <:+ up) :
    Spec (On (Inv stage root d₀ fun _ => none) fun r => r.rest = b)
      (receiveFile sys stage up n size mode)
      (fun _ => On (Inv stage root d₀ fun _ => none) fun r =>
        r.rest = b.drop (size + digestSize))
      (On (Inv stage root d₀ fun _ => none) anyReader) := by
  have hp : [root] <:+ n :: up := hup.trans (List.suffix_cons n up)
  refine Spec.bind (orAny (mkdirParents_spec fun _ => names_not_astray hup)) fun _ => ?_
  refine Spec.bind (orAny (openDestination_spec (names_not_astray hp))) fun inode => ?_
  intro s hs
  have hi : d₀.next ≤ inode := hs.1.2
  refine (Spec.bind (P := On (Inv stage root d₀ fun _ => none) fun r => r.rest = b)
    (Spec.tryCatch (K := On (Inv stage root d₀ fun _ => none) anyReader)
      (Q := fun _ => On (Inv stage root d₀ fun _ => none) fun r => r.rest = b.drop size) ?_
      fun e => ?_) fun digest => ?_) s ⟨hs.1.1, hs.2⟩
  · refine Spec.bind (receivePayload_spec hi (Nat.le_refl size)) fun digest => ?_
    exact Spec.bind (orAny sync_spec) fun _ => Spec.pure fun _ h => h
  · exact Spec.bind sync_spec fun _ => Spec.throw fun _ h => h
  · refine Spec.bind (orAny sync_spec) fun _ => ?_
    refine Spec.bind (orAny readexactly_spec) fun expected => ?_
    refine Spec.bind (raiseIf_spec fun _ h => ⟨h.1, trivial⟩) fun _ => ?_
    have hrest : ∀ s, On (Inv stage root d₀ fun _ => none) (fun r =>
        digestSize ≤ (b.drop size).length ∧ expected = (b.drop size).take digestSize ∧
          r.rest = (b.drop size).drop digestSize) s ∧ ¬sys.sha256 digest ≠ expected →
        On (Inv stage root d₀ fun _ => none) (fun r => r.rest = b.drop (size + digestSize)) s :=
      fun s h => ⟨h.1.1, h.1.2.2.2.trans List.drop_drop⟩
    refine (orAny (chmod_spec (names_not_astray hp) ?_)).conseq hrest (fun _ _ h => h)
      fun _ h => h
    rw [stroll_names hp]
    exact fun h => by cases h

theorem receiveHeader_spec {I : Disk String FileData → Prop} {size : ℕ} {acc : Acc} :
    Spec (On I fun r => r.rest = b) (receiveHeader sys size acc)
      (fun x s => On I (fun r => r.rest = b.drop size) s ∧
        sys.loads (b.take size) = .dict x.1 ∧ x.2.links = acc.links)
      (On I anyReader) := by
  refine Spec.bind (raiseIf_spec fun _ h => ⟨h.1, trivial⟩) fun _ => ?_
  refine Spec.bind (raiseIf_spec fun _ h => ⟨h.1.1, trivial⟩) fun _ => ?_
  refine Spec.bind ((orAny readexactly_spec).conseq (fun _ h => h.1.1) (fun _ _ h => h)
    fun _ h => h) fun raw => ?_
  cases hl : sys.loads raw with
  | dict entry =>
    refine Spec.pure fun s hs => ⟨⟨hs.1, hs.2.2.2⟩, ?_, rfl⟩
    rw [← hs.2.2.1, hl]
  | notDict | invalid => exact Spec.throw fun _ h => ⟨h.1, trivial⟩

theorem entryPath_ok {entry : List (String × Json)} {path : List String}
    (h : entryPath entry root = .ok path) : path.head? = some root ∧ ".." ∉ path := by
  unfold entryPath at h
  split at h
  case h_1 =>
    split at h
    case h_1 hv => exact Except.ok.inj h ▸ validatePath_ok hv
    case h_2 => cases h
  case h_2 => cases h

theorem suffix_reverse {path : List String} (h : path.head? = some root) :
    [root] <:+ path.reverse := by
  cases path with
  | nil => cases h
  | cons p ps =>
    obtain rfl : p = root := Option.some.inj h
    exact ⟨ps.reverse, by simp⟩

variable {maxFileBytes : Option ℕ}

/-- An entry: directories and files are made inside, and a link is kept for later. -/
theorem receiveEntry_spec {size : ℕ} {acc : Acc} :
    Spec (On (Inv stage root d₀ fun _ => none) fun r => r.rest = b)
      (receiveEntry sys stage root maxFileBytes size acc)
      (fun acc' => On (Inv stage root d₀ fun _ => none) fun r =>
        ∃ links, frame sys root size b = some (links, r.rest) ∧ acc'.links = acc.links ++ links)
      (On (Inv stage root d₀ fun _ => none) anyReader) := by
  refine Spec.bind receiveHeader_spec fun x => ?_
  obtain ⟨entry, acc₁⟩ := x
  intro s hs
  obtain ⟨hOn, hloads, hlinks⟩ := hs
  change acc₁.links = acc.links at hlinks
  refine (?_ : Spec (On (Inv stage root d₀ fun _ => none) fun r => r.rest = b.drop size) _ _ _)
    s hOn
  dsimp only
  cases hpath : entryPath entry root with
  | error e => exact Spec.throw fun _ h => ⟨h.1, trivial⟩
  | ok path =>
    refine Spec.bind (raiseIf_spec fun _ h => ⟨h.1, trivial⟩) fun _ => ?_
    refine (?_ : Spec (On (Inv stage root d₀ fun _ => none) fun r => r.rest = b.drop size)
      _ _ _).conseq (fun _ h => h.1) (fun _ _ h => h) fun _ h => h
    have hroot := suffix_reverse (entryPath_ok hpath).1
    cases hbody : body entry path root with
    | error e => exact Spec.throw fun _ h => ⟨h.1, trivial⟩
    | ok x =>
      cases hrev : path.reverse with
      | nil =>
        rw [hrev] at hroot
        exact absurd (List.suffix_nil.mp hroot) (List.cons_ne_nil _ _)
      | cons n up =>
        rw [hrev] at hroot
        cases x with
        | directory =>
          refine Spec.bind (orAny (mkdirParents_spec fun _ => names_not_astray hroot))
            fun _ => Spec.pure fun s h => ⟨h.1, [], ?_, ?_⟩
          · simp only [frame, hloads, hpath, hbody]
            rw [h.2]
          · rw [List.append_nil]
            exact hlinks
        | link type target =>
          refine Spec.pure fun s h => ⟨h.1, [⟨n :: up, target, type⟩], ?_, ?_⟩
          · simp only [frame, hloads, hpath, hbody, hrev]
            rw [h.2]
          · simp only [hlinks]
        | file fileSize mode =>
          refine Spec.bind (raiseIf_spec fun _ h => ⟨h.1, trivial⟩) fun _ => ?_
          refine Spec.bind (raiseIf_spec fun _ h => ⟨h.1.1, trivial⟩) fun _ => ?_
          intro s hs
          have hup : [root] <:+ up := by
            obtain ⟨q, hq⟩ := hroot
            cases q with
            | nil =>
              obtain ⟨-, rfl⟩ := List.cons.inj hq
              exact absurd rfl hs.2
            | cons m q =>
              obtain ⟨-, rfl⟩ := List.cons.inj hq
              exact ⟨q, rfl⟩
          refine (Spec.bind (receiveFile_spec (b := b.drop size) hup) fun _ =>
            Spec.pure fun s h => ⟨h.1, [], ?_, ?_⟩) s hs.1.1
          · simp only [frame, hloads, hpath, hbody]
            rw [h.2]
          · rw [List.append_nil]
            exact hlinks

theorem nextHeader_spec {I : Disk String FileData → Prop} :
    Spec (On I fun r => r.rest = b) (nextHeader sys)
      (fun size => On I fun r => size = unpack (b.take 4) ∧ r.rest = b.drop 4)
      (On I anyReader) := by
  refine Spec.bind (orAny checkCancel_spec) fun _ => ?_
  refine Spec.bind (orAny readexactly_spec) fun raw => ?_
  exact Spec.pure fun s h => ⟨h.1, by rw [h.2.2.1], h.2.2.2⟩

theorem receiveEntries_spec :
    ∀ {left : ℕ} {acc : Acc} {b : Bytes},
      Spec (On (Inv stage root d₀ fun _ => none) fun r => r.rest = b)
        (receiveEntries sys stage root maxFileBytes left acc)
        (fun acc' s => On (Inv stage root d₀ fun _ => none) anyReader s ∧
          acc'.links = acc.links ++ linksIn sys root left b)
        (On (Inv stage root d₀ fun _ => none) anyReader)
  | 0, acc, b => by
    rw [receiveEntries]
    refine Spec.bind nextHeader_spec fun size => Spec.ite (fun _ => ?_) fun _ =>
      Spec.ite (fun _ => ?_) fun _ => ?_
    · exact Spec.pure fun s h => ⟨⟨h.1, trivial⟩, by rw [linksIn, List.append_nil]⟩
    · exact Spec.throw fun _ h => ⟨h.1, trivial⟩
    · exact Spec.throw fun _ h => ⟨h.1, trivial⟩
  | left + 1, acc, b => by
    rw [receiveEntries]
    refine Spec.bind nextHeader_spec fun size => Spec.ite (fun hsize => ?_) fun hsize => ?_
    · refine Spec.pure fun s h => ⟨⟨h.1, trivial⟩, ?_⟩
      rw [linksIn, if_pos (h.2.1.symm.trans hsize), List.append_nil]
    · intro s hs
      obtain ⟨hI, hs4, hrest⟩ := hs
      refine (Spec.bind (receiveEntry_spec (b := b.drop 4)) fun acc₁ => ?_ :
        Spec (On (Inv stage root d₀ fun _ => none) fun r => r.rest = b.drop 4) _ _ _) s ⟨hI, hrest⟩
      intro s hs
      obtain ⟨hI, links, hframe, hlinks⟩ := hs
      refine ((receiveEntries_spec (b := s.src.rest)).conseq (fun _ h => h)
        (fun acc' u h => ⟨h.1, ?_⟩) fun _ h => h) s ⟨hI, rfl⟩
      rw [h.2, hlinks, linksIn, if_neg (fun h0 => hsize (hs4.trans h0)), ← hs4, hframe,
        List.append_assoc]

end Entries

/-! ## Links -/

section Links

variable {sys : Sys}

theorem createLink_spec {target : String} (hs : (stroll t root sys.hops [] (names up)).inside)
    (htarget : (∃ r, Put t root sys.hops up r) →
      (stroll t root sys.deep [] (names up ++ comps (parts target))).inside) :
    Spec (On (Inv stage root d₀ t) anyReader) (createLink sys stage up n target)
      (fun _ s => ∃ r, Put t root sys.hops up r ∧ (On (Inv stage root d₀ t) anyReader s ∨
        On (Inv stage root d₀ (update t (n :: r) (some (comps (parts target)))))
          anyReader s))
      (On (Inv stage root d₀ t) anyReader) := by
  refine Spec.tryCatch ((osSymlink_spec hs).mono fun _ s h => ?_) fun e => ?_
  · obtain ⟨r, hput, hI⟩ := h
    exact ⟨r, hput, Or.inr hI⟩
  · -- The system refuses: a hard link to what the target leads to.
    refine Spec.bind (resolve_spec htarget) fun src => ?_
    refine Spec.bind (raiseIf_spec fun _ h => h.1) fun _ => ?_
    intro s h
    obtain ⟨⟨hOn, hsrc⟩, -⟩ := h
    refine (Spec.bind (query_spec (Q := fun _ => True) fun _ _ _ _ => trivial) fun isFile =>
      Spec.bind (raiseIf_spec fun _ h => h.1) fun _ => ?_ :
      Spec (On (Inv stage root d₀ t) anyReader) _ _ _) s hOn
    refine Spec.tryCatch ((osLink_spec hs hsrc).conseq (fun _ h => h.1.1) (fun _ s h => ?_)
      fun _ h => h) fun _ => Spec.throw fun _ h => h
    obtain ⟨hOn, r, hput⟩ := h
    exact ⟨r, hput, Or.inl hOn⟩

variable {links : List Link} {link : Link}

theorem Tame.directory (h : Tame sys root t (link :: links)) (hd : link.destination = n :: up) :
    (stroll t root sys.hops [] (names up)).inside := by
  unfold Tame at h
  rw [hd] at h
  dsimp only at h
  split at h
  case h_1 m l hat =>
    rw [hat]
    rfl
  case h_2 hloop =>
    rw [hloop]
    rfl
  case h_3 => exact h.elim

theorem Tame.put {up r : Loc String} (h : Tame sys root t (link :: links))
    (hd : link.destination = n :: up) (hput : Put t root sys.hops up r) :
    (stroll t root sys.deep [] (names up ++ comps (parts link.target))).inside ∧
      Tame sys root t links ∧ (link.type = .symlink →
        Tame sys root (update t (n :: r) (some (comps (parts link.target)))) links) := by
  obtain ⟨hat, hne⟩ := hput
  unfold Tame at h
  rw [hd] at h
  dsimp only at h
  rw [hat] at h
  cases r with
  | nil => exact absurd rfl hne
  | cons m l => exact h

/-- One link is put inside. -/
theorem putLink_spec (h : Tame sys root t (link :: links)) :
    Spec (On (Inv stage root d₀ t) anyReader) (putLink sys stage link)
      (fun _ s => ∃ t', On (Inv stage root d₀ t') anyReader s ∧ Tame sys root t' links)
      (On (Inv stage root d₀ t) anyReader) := by
  unfold putLink
  cases hd : link.destination with
  | nil => exact Spec.throw fun _ h => h
  | cons n up =>
    have hs := h.directory hd
    have htarget : (∃ r, Put t root sys.hops up r) →
        (stroll t root sys.deep [] (names up ++ comps (parts link.target))).inside :=
      fun ⟨r, hput⟩ => (h.put hd hput).1
    have hna : stroll t root sys.hops [] (names up) ≠ .astray := by
      intro ha
      rw [ha] at hs
      cases hs
    refine Spec.bind (mkdirParents_spec fun _ => hna) fun _ => ?_
    refine Spec.bind (query_spec (Q := fun _ => True) fun _ _ _ _ => trivial) fun _ => ?_
    refine Spec.bind (raiseIf_spec fun _ h => h.1) fun _ => ?_
    refine (?_ : Spec (On (Inv stage root d₀ t) anyReader) _ _ _).conseq (fun _ h => h.1.1)
      (fun _ _ h => h) fun _ h => h
    refine Spec.bind (query_spec (Q := fun _ => True) fun _ _ _ _ => trivial) fun _ => ?_
    refine Spec.bind (raiseIf_spec fun _ h => h.1) fun _ => ?_
    refine (?_ : Spec (On (Inv stage root d₀ t) anyReader) _ _ _).conseq (fun _ h => h.1.1)
      (fun _ _ h => h) fun _ h => h
    cases htype : link.type with
    | hardlink =>
      refine Spec.bind (resolve_spec htarget) fun src => ?_
      refine Spec.bind (raiseIf_spec fun _ h => h.1) fun _ => ?_
      intro s hsrc
      refine ((osLink_spec hs hsrc.1.2).mono fun _ s h' => ?_) s hsrc.1.1
      obtain ⟨hOn, r, hput⟩ := h'
      exact ⟨t, hOn, (h.put hd hput).2.1⟩
    | symlink =>
      refine (createLink_spec hs htarget).mono fun _ s h' => ?_
      obtain ⟨r, hput, hOn | hOn⟩ := h'
      · exact ⟨t, hOn, (h.put hd hput).2.1⟩
      · exact ⟨_, hOn, (h.put hd hput).2.2 htype⟩

theorem putLinks_spec : ∀ {links : List Link} {t : Table}, Tame sys root t links →
    Spec (On (Inv stage root d₀ t) anyReader) (putLinks sys stage links)
      (fun _ s => ∃ t', Inv stage root d₀ t' s.disk ∧ Tame sys root t' [])
      (fun s => ∃ t', Inv stage root d₀ t' s.disk)
  | [], t, h => Spec.pure fun s hs => ⟨t, hs.1, h⟩
  | link :: links, t, h => by
    rw [putLinks]
    refine Spec.bind ((putLink_spec h).errs fun s hs => ⟨t, hs.1⟩) fun _ s hs => ?_
    obtain ⟨t', hOn, htame⟩ := hs
    exact putLinks_spec htame s hOn

/-- Nothing is at the root yet. -/
theorem inv_start {d : Disk String FileData} (hfresh : d.node (root :: stage) = none) :
    Inv stage root d (fun _ => none) d := by
  have hbelow : ∀ q : List String, d.node (q ++ root :: stage) = none := by
    intro q
    induction q with
    | nil => exact hfresh
    | cons n q ih =>
      by_contra hne
      have := d.parent n (q ++ root :: stage) hne
      rw [ih] at this
      cases this
  constructor
  · exact fun _ _ => rfl
  · exact fun _ _ => rfl
  · exact Nat.le_refl _
  · rintro l i ⟨q, rfl⟩ hi
    rw [hbelow q] at hi
    cases hi
  · constructor
    · rintro l ⟨q, rfl⟩ target ht
      have := hbelow q
      rw [List.append_assoc] at ht
      rw [List.singleton_append, this] at ht
      cases ht
    · rintro l cs ⟨⟩

theorem receiveFileStream_spec {b : Bytes} {expectedBytes maxFileBytes : Option ℕ}
    (h : Tame sys root (fun _ => none) (streamLinks sys root b)) :
    Spec (On (Inv stage root d₀ fun _ => none) fun r => r.rest = b)
      (receiveFileStream sys stage root expectedBytes maxFileBytes)
      (fun _ s => ∃ t, Inv stage root d₀ t s.disk ∧ Tame sys root t [])
      (fun s => ∃ t, Inv stage root d₀ t s.disk) := by
  have herr : ∀ s : St, Inv stage root d₀ (fun _ => none) s.disk →
      ∃ t, Inv stage root d₀ t s.disk := fun s h => ⟨_, h⟩
  refine Spec.bind ((orAny readexactly_spec).errs fun s h => herr s h.1) fun start => ?_
  refine Spec.bind (raiseIf_spec fun s h => herr s h.1) fun _ => ?_
  refine Spec.bind ((receiveEntries_spec (b := b.drop magic.length)).conseq
    (fun s h => ⟨h.1.1, h.1.2.2.2⟩) (fun _ _ h => h) fun s h => herr s h.1) fun acc => ?_
  intro s hs
  obtain ⟨hOn, hlinks⟩ := hs
  rw [List.nil_append] at hlinks
  refine (?_ : Spec (On (Inv stage root d₀ fun _ => none) anyReader) _ _ _) s hOn
  refine Spec.bind (requireEof_spec.errs fun s h => herr s h.1) fun _ => ?_
  refine Spec.bind (received_spec.errs fun s h => herr s h.1) fun count => ?_
  refine Spec.bind (raiseIf_spec fun s h => herr s h.1) fun _ => ?_
  refine Spec.bind (raiseIf_spec fun s h => herr s h.1.1) fun _ => ?_
  refine Spec.bind (checkCancel_spec.conseq (fun s h => h.1.1) (fun _ _ h => h)
    fun s h => herr s h.1) fun _ => ?_
  rw [hlinks]
  exact Spec.bind (putLinks_spec h) fun _ => Spec.pure fun s h => h

end Links

end Inv

/-! ## The theorem -/

section Theorem

variable (stage : Loc String) (root : String)

/-- Nothing outside was made or changed. -/
structure Confined (d₀ d : Disk String FileData) : Prop where
  node : ∀ l, ¬Inside stage root l → d.node l = d₀.node l
  data : ∀ i, i < d₀.next → d.data i = d₀.data i

/-- Every link inside resolves inside. -/
structure Resolves (d : Disk String FileData) : Prop where
  symlinks : ∀ n l target, Inside stage root (n :: l) → d.node (n :: l) = some (.link target) →
    ∀ hops a, walk d.node .lax hops (if target.absolute then [] else l) target.comps = .at a →
      Inside stage root a
  hardlinks : ∀ l i, Inside stage root l → d.node l = some (.file i) →
    ∀ l', d.node l' = some (.file i) → Inside stage root l'

/-- What a run of the receiver leaves. -/
structure Safe (d₀ : Disk String FileData) (run : EStateM.Result Err St ℕ) : Prop where
  accepts : ∀ n s, run = .ok n s → Confined stage root d₀ s.disk ∧ Resolves stage root s.disk
  raises : ∀ e s, run = .error e s → Confined stage root d₀ s.disk

variable {stage root} {sys : Sys} {d₀ d : Disk String FileData} {t : Table}

theorem Inv.confinement (h : Inv stage root d₀ t d) : Confined stage root d₀ d :=
  ⟨h.outside, h.data⟩

theorem Inv.resolves (h : Inv stage root d₀ t d) (ht : Tame sys root t []) :
    Resolves stage root d where
  symlinks n l target hin hnode hops a hw := by
    obtain ⟨r, hr, he⟩ := hin.split
    rw [he] at hnode
    obtain ⟨habs, htable⟩ := h.linked.found r hr target hnode
    have hinside := ht r target.comps htable hops
    cases r with
    | nil => exact absurd (List.suffix_nil.mp hr) (List.cons_ne_nil _ _)
    | cons m r =>
      obtain ⟨-, rfl⟩ := List.cons.inj he
      have hgood : Good root r := Good.tail (Or.inr hr)
      have hna : stroll t root hops r target.comps ≠ .astray := by
        intro ha
        rw [List.tail_cons, ha] at hinside
        cases hinside
      rw [habs] at hw
      rcases walk_stroll h.linked hgood hna with ⟨k, hk, hat, hw'⟩ | ⟨-, hw'⟩
      · cases hw.symm.trans hw'
        refine inside_append (hk.resolve_left ?_)
        rintro rfl
        rw [List.tail_cons, hat] at hinside
        cases hinside
      · cases hw.symm.trans hw'
  hardlinks l i hin hi l' hi' := by
    by_contra hout
    rw [h.outside l' hout] at hi'
    exact absurd (d₀.used l' i hi') (Nat.not_lt.mpr (h.files l i hin hi))

end Theorem

/-! ## Two streams -/

section Streams

/-- `/h` with an empty `/h/s`. -/
def emptyStage : Disk String FileData where
  node l := if l = [] ∨ l = ["h"] ∨ l = ["s", "h"] then some .dir else none
  data _ := none
  next := 0
  root := rfl
  parent n l h := by
    have : n :: l = ["h"] ∨ n :: l = ["s", "h"] := by
      by_contra hno
      rw [not_or] at hno
      exact h (if_neg (by simp only [List.cons_ne_nil, false_or, not_or]; exact hno))
    rcases this with h | h <;> obtain ⟨-, rfl⟩ := List.cons.inj h <;> rfl
  used l i h := by
    split at h <;> cases h

/-- `{"path":"r/d","type":"directory"}` -/
def dHeader : Bytes :=
  [123, 34, 112, 97, 116, 104, 34, 58, 34, 114, 47, 100, 34, 44, 34, 116, 121, 112, 101, 34, 58,
    34, 100, 105, 114, 101, 99, 116, 111, 114, 121, 34, 125]

/-- `{"path":"r/l","type":"symlink","target":"d"}` -/
def lHeader : Bytes :=
  [123, 34, 112, 97, 116, 104, 34, 58, 34, 114, 47, 108, 34, 44, 34, 116, 121, 112, 101, 34, 58,
    34, 115, 121, 109, 108, 105, 110, 107, 34, 44, 34, 116, 97, 114, 103, 101, 116, 34, 58, 34,
    100, 34, 125]

/-- `{"path":"r/a/b","type":"directory"}` -/
def abHeader : Bytes :=
  [123, 34, 112, 97, 116, 104, 34, 58, 34, 114, 47, 97, 47, 98, 34, 44, 34, 116, 121, 112, 101,
    34, 58, 34, 100, 105, 114, 101, 99, 116, 111, 114, 121, 34, 125]

/-- `{"path":"r/a/b/up","type":"symlink","target":"../.."}` -/
def upHeader : Bytes :=
  [123, 34, 112, 97, 116, 104, 34, 58, 34, 114, 47, 97, 47, 98, 47, 117, 112, 34, 44, 34, 116,
    121, 112, 101, 34, 58, 34, 115, 121, 109, 108, 105, 110, 107, 34, 44, 34, 116, 97, 114, 103,
    101, 116, 34, 58, 34, 46, 46, 47, 46, 46, 34, 125]

/-- `{"path":"r/x","type":"symlink","target":"a/b/up/../.."}` -/
def xHeader : Bytes :=
  [123, 34, 112, 97, 116, 104, 34, 58, 34, 114, 47, 120, 34, 44, 34, 116, 121, 112, 101, 34, 58,
    34, 115, 121, 109, 108, 105, 110, 107, 34, 44, 34, 116, 97, 114, 103, 101, 116, 34, 58, 34,
    97, 47, 98, 47, 117, 112, 47, 46, 46, 47, 46, 46, 34, 125]

/-- `{"path":"r/x/evil","type":"symlink","target":"y"}` -/
def evilHeader : Bytes :=
  [123, 34, 112, 97, 116, 104, 34, 58, 34, 114, 47, 120, 47, 101, 118, 105, 108, 34, 44, 34,
    116, 121, 112, 101, 34, 58, 34, 115, 121, 109, 108, 105, 110, 107, 34, 44, 34, 116, 97, 114,
    103, 101, 116, 34, 58, 34, 121, 34, 125]

/-- `json.loads`, of these headers. -/
def loadsHere (b : Bytes) : Loaded :=
  if b = dHeader then
    .dict [("path", .str "r/d"), ("type", .str "directory")]
  else if b = lHeader then
    .dict [("path", .str "r/l"), ("type", .str "symlink"), ("target", .str "d")]
  else if b = abHeader then
    .dict [("path", .str "r/a/b"), ("type", .str "directory")]
  else if b = upHeader then
    .dict [("path", .str "r/a/b/up"), ("type", .str "symlink"), ("target", .str "../..")]
  else if b = xHeader then
    .dict [("path", .str "r/x"), ("type", .str "symlink"), ("target", .str "a/b/up/../..")]
  else if b = evilHeader then
    .dict [("path", .str "r/x/evil"), ("type", .str "symlink"), ("target", .str "y")]
  else .invalid

/-- A header on the wire. -/
def wire (b : Bytes) : Bytes := pack b.length ++ b

def plainStream : Bytes := magic ++ wire dHeader ++ wire lHeader ++ pack 0

def hostileStream : Bytes :=
  magic ++ wire abHeader ++ wire upHeader ++ wire xHeader ++ wire evilHeader ++ pack 0

def plainSys : Sys := ⟨40, 40, fun _ => false, fun _ => false, loadsHere, fun _ => []⟩

def receiveHere (b : Bytes) : EStateM.Result Err St ℕ :=
  receiveFileStream plainSys ["s", "h"] "r" none none ⟨.new [.data b], emptyStage, 0⟩

theorem plain_links : streamLinks plainSys "r" (Reader.bytesOf [.data plainStream]) =
    [⟨["l", "r"], "d", .symlink⟩] := by decide +kernel

theorem plain_tame {links : List Link} (h : links = [⟨["l", "r"], "d", .symlink⟩]) :
    Tame plainSys "r" (fun _ => none) links := by
  subst h
  have hd : comps (parts "d") = [.name "d"] := by decide +kernel
  have hup : stroll (fun _ => none) "r" plainSys.hops [] (names ["r"]) = .at ["r"] := by
    decide +kernel
  have htarget : (stroll (fun _ => none) "r" plainSys.deep []
      (names ["r"] ++ comps (parts "d"))).inside := by decide +kernel
  unfold Tame
  dsimp only
  rw [hup]
  refine ⟨htarget, ?_, fun _ => ?_⟩
  · intro l target h
    cases h
  intro l target h hops
  rw [hd] at h ⊢
  by_cases hl : l = ["l", "r"]
  · subst hl
    rw [update_self] at h
    cases h
    have hw : ∀ follow, strollWith (update (fun _ => none) ["l", "r"]
        (some [.name "d"])) "r" follow ["r"] [.name "d"] = .at ["d", "r"] := by
      intro follow
      rw [strollWith, update_of_ne (by decide +kernel)]
      rfl
    cases hops with
    | zero | succ hops => exact congrArg Stroll.inside (hw _)
  · rw [update_of_ne hl] at h
    cases h

/-- Where its link stands. -/
theorem plain_run : (match receiveHere plainStream with
    | .ok _ s => decide (s.disk.node ["l", "r", "s", "h"] = some (.link ⟨false, [.name "d"]⟩))
    | .error _ _ => false) = true := by decide +kernel

/-- Where the last link of the hostile stream stands. -/
theorem hostile_run : (match receiveHere hostileStream with
    | .ok _ s => decide (s.disk.node ["evil", "h"] = none)
    | .error _ _ => true) = false := by decide +kernel

end Streams

end SparkDeck.FileStream
