import UBoot.Lib.Memory

/-!
# Lists with sentinels

Doubly linked lists whose header is made of three pointers.  These are two nodes that lie over each
other: the first one is in front of all nodes of the list, and the second one, which has no
successor, is behind them.
-/

namespace ExecList

/-! ### Pointers -/

/-- Where `mln_Pred` of a node is; `mln_Succ` is at its beginning. -/
def predCell (n : Word) : Word := n + 4

/-- Where `mlh_Tail` of a header is; `mlh_Head` is at its beginning. -/
def tailCell (l : Word) : Word := l + 4

/-- Where `mlh_TailPred` is. -/
def tailPredCell (l : Word) : Word := l + 8

/-- `newminlist`. -/
def newList (m : Word → Word) (l : Word) : Word → Word :=
  let m := Function.update m l (tailCell l)
  let m := Function.update m (tailCell l) 0
  Function.update m (tailPredCell l) l

/-- `addtail`. -/
def addTail (m : Word → Word) (l n : Word) : Word → Word :=
  let m := Function.update m n (tailCell l)
  let m := Function.update m (predCell n) (m (tailPredCell l))
  let m := Function.update m (m (predCell n)) n
  Function.update m (tailPredCell l) n

/-! ### Lists -/

/-- The successors of `a` are the given nodes, and then `b`. -/
def Linked (m : Word → Word) : Word → List Word → Word → Prop
  | a, [], b => m a = b
  | a, n :: ns, b => m a = n ∧ Linked m n ns b

/-- The list of a header has the given nodes. -/
structure IsList (m : Word → Word) (l : Word) (ns : List Word) : Prop where
  linked : Linked m l ns (tailCell l)
  tail : m (tailCell l) = 0
  tailPred : m (tailPredCell l) = (l :: ns).getLast (List.cons_ne_nil l ns)

/-- The nodes are different ones, and the header does not lie over their successors. -/
structure Separate (l : Word) (ns : List Word) : Prop where
  nodup : (l :: ns).Nodup
  outside : ∀ n ∈ ns, n ≠ tailCell l ∧ n ≠ tailPredCell l

/-- A node does not lie over the others, nor over the header. -/
structure Apart (l : Word) (ns : List Word) (n : Word) : Prop where
  nodes : ∀ x ∈ l :: ns, x ≠ n ∧ x ≠ predCell n
  tail : tailCell l ≠ n ∧ tailCell l ≠ predCell n
  tailPred : tailPredCell l ≠ n ∧ tailPredCell l ≠ predCell n

section Lists

variable {m m' : Word → Word} {l n a b : Word} {ns : List Word}

theorem tailCell_ne : tailCell l ≠ l := by
  rw [tailCell]
  bv_omega

theorem tailPredCell_ne : tailPredCell l ≠ l := by
  rw [tailPredCell]
  bv_omega

theorem tailPredCell_ne_tailCell : tailPredCell l ≠ tailCell l := by
  rw [tailPredCell, tailCell]
  bv_omega

theorem predCell_ne : predCell n ≠ n := by
  rw [predCell]
  bv_omega

/-- The last successor is another one. -/
theorem Linked.redirect (h : Linked m a ns b) (hnodup : (a :: ns).Nodup)
    (hsame : ∀ x ∈ a :: ns, x ≠ (a :: ns).getLast (List.cons_ne_nil a ns) → m' x = m x)
    (hlast : m' ((a :: ns).getLast (List.cons_ne_nil a ns)) = n) :
  Linked m' a ns n
  := by
  induction ns generalizing a with
  | nil => exact hlast
  | cons c ns ih =>
    rw [List.getLast_cons (List.cons_ne_nil c ns)] at hsame hlast
    have hne : a ≠ (c :: ns).getLast (List.cons_ne_nil c ns) := by
      intro ha
      apply (List.nodup_cons.mp hnodup).1
      rw [ha]
      apply List.getLast_mem
    constructor
    · rw [hsame a List.mem_cons_self hne]
      exact h.1
    · apply ih h.2 (List.nodup_cons.mp hnodup).2 _ hlast
      exact fun x hx => hsame x (List.mem_cons_of_mem a hx)

theorem Linked.concat (h : Linked m a ns n) (hn : m n = b) :
  Linked m a (ns ++ [n]) b
  := by
  induction ns generalizing a with
  | nil => exact ⟨h, hn⟩
  | cons c ns ih => exact ⟨h.1, ih h.2⟩

/-- **A new list** is empty. -/
theorem isList_newList (m : Word → Word) (l : Word) :
  IsList (newList m l) l []
  where
  linked := by
    change newList m l l = tailCell l
    rw [newList, Function.update_of_ne tailPredCell_ne.symm, Function.update_of_ne tailCell_ne.symm,
      Function.update_self]
  tail := by
    rw [newList, Function.update_of_ne tailPredCell_ne_tailCell.symm, Function.update_self]
  tailPred := Function.update_self ..

theorem Separate.nil : Separate l [] where
  nodup := List.nodup_singleton l
  outside := fun _ h => absurd h List.not_mem_nil

theorem Separate.concat (h : Separate l ns) (hn : Apart l ns n) :
  Separate l (ns ++ [n])
  where
  nodup := by
    rw [← List.cons_append, List.nodup_append]
    refine ⟨h.nodup, List.nodup_singleton n, ?_⟩
    intro x hx y hy
    rw [List.mem_singleton.mp hy]
    exact (hn.nodes x hx).1
  outside := by
    intro x hx
    obtain hx | hx := List.mem_append.mp hx
    · apply h.outside x hx
    · rw [List.mem_singleton.mp hx]
      exact ⟨hn.tail.1.symm, hn.tailPred.1.symm⟩

/-- **A node is added** behind the others. -/
theorem IsList.addTail (h : IsList m l ns) (hsep : Separate l ns) (hn : Apart l ns n) :
  IsList (addTail m l n) l (ns ++ [n])
  := by
  have hmem : (l :: ns).getLast (List.cons_ne_nil l ns) ∈ l :: ns := List.getLast_mem _
  have hm : ExecList.addTail m l n
      = Function.update (Function.update (Function.update (Function.update m n (tailCell l))
          (predCell n) ((l :: ns).getLast (List.cons_ne_nil l ns)))
          ((l :: ns).getLast (List.cons_ne_nil l ns)) n) (tailPredCell l) n := by
    rw [ExecList.addTail, Function.update_of_ne hn.tailPred.1, h.tailPred, Function.update_self]
  generalize hlast : (l :: ns).getLast (List.cons_ne_nil l ns) = last at hm hmem
  have hheader : tailCell l ≠ last ∧ tailPredCell l ≠ last := by
    obtain rfl | hin := List.mem_cons.mp hmem
    · exact ⟨tailCell_ne, tailPredCell_ne⟩
    · exact ⟨(hsep.outside last hin).1.symm, (hsep.outside last hin).2.symm⟩
  have hcells : ∀ x ∈ l :: ns, x ≠ tailPredCell l := by
    intro x hx
    obtain rfl | hin := List.mem_cons.mp hx
    · exact tailPredCell_ne.symm
    · exact (hsep.outside x hin).2
  rw [hm]
  constructor
  · apply Linked.concat
    · apply h.linked.redirect hsep.nodup
      · intro x hx hne
        rw [hlast] at hne
        rw [Function.update_of_ne (hcells x hx), Function.update_of_ne hne,
          Function.update_of_ne (hn.nodes x hx).2, Function.update_of_ne (hn.nodes x hx).1]
      · rw [hlast, Function.update_of_ne (hcells last hmem), Function.update_self]
    · rw [Function.update_of_ne hn.tailPred.1.symm,
        Function.update_of_ne (hn.nodes last hmem).1.symm, Function.update_of_ne predCell_ne.symm,
        Function.update_self]
  · rw [Function.update_of_ne tailPredCell_ne_tailCell.symm, Function.update_of_ne hheader.1,
      Function.update_of_ne hn.tail.2, Function.update_of_ne hn.tail.1, h.tail]
  · rw [Function.update_self]
    exact (List.getLast_append_singleton (l :: ns)).symm

end Lists

end ExecList
