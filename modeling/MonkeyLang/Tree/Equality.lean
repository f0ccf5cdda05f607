import MonkeyLang.Tree

/-!
# Equality of trees

Two trees are equal when they have the same shape and agree in every token, lines included, and in
every name, operator and value. The comparison is structural.
-/

namespace MonkeyLang

mutual

/-- Whether two expressions are equal. -/
def Expr.beq : Expr → Expr → Bool
  | .missing, .missing => true
  | .unknown l t, .unknown l' t' => l == l' && t == t'
  | .identifier i, .identifier i' => i == i'
  | .integer t n, .integer t' n' => t == t' && n == n'
  | .boolean t b, .boolean t' b' => t == t' && b == b'
  | .text t s, .text t' s' => t == t' && s == s'
  | .unary t o a, .unary t' o' a' => t == t' && o == o' && a.beq a'
  | .binary t a o b, .binary t' a' o' b' => t == t' && a.beq a' && o == o' && b.beq b'
  | .function t ps b, .function t' ps' b' => t == t' && ps == ps' && b.beq b'
  | .call t f es, .call t' f' es' => t == t' && f.beq f' && Expr.beqList es es'
  | .array t es, .array t' es' => t == t' && Expr.beqList es es'
  | .index t a i, .index t' a' i' => t == t' && a.beq a' && i.beq i'
  | .hash t ps, .hash t' ps' => t == t' && Expr.beqPairs ps ps'
  | _, _ => false

/-- Whether two lists of expressions are equal. -/
def Expr.beqList : List Expr → List Expr → Bool
  | [], [] => true
  | e :: es, e' :: es' => e.beq e' && Expr.beqList es es'
  | _, _ => false

/-- Whether two lists of pairs are equal. -/
def Expr.beqPairs : List (Expr × Expr) → List (Expr × Expr) → Bool
  | [], [] => true
  | (k, v) :: ps, (k', v') :: ps' => k.beq k' && v.beq v' && Expr.beqPairs ps ps'
  | _, _ => false

/-- Whether two statements are equal. -/
def Stmt.beq : Stmt → Stmt → Bool
  | .unknown l t, .unknown l' t' => l == l' && t == t'
  | .declaration t i e, .declaration t' i' e' => t == t' && i == i' && e.beq e'
  | .ret t e, .ret t' e' => t == t' && e.beq e'
  | .expression t e, .expression t' e' => t == t' && e.beq e'
  | .block b, .block b' => b.beq b'
  | .ifThen t c b, .ifThen t' c' b' => t == t' && c.beq c' && b.beq b'
  | .ifElse t c b d, .ifElse t' c' b' d' => t == t' && c.beq c' && b.beq b' && d.beq d'
  | _, _ => false

/-- Whether two lists of statements are equal. -/
def Stmt.beqList : List Stmt → List Stmt → Bool
  | [], [] => true
  | s :: ss, s' :: ss' => s.beq s' && Stmt.beqList ss ss'
  | _, _ => false

/-- Whether two blocks are equal. -/
def Block.beq : Block → Block → Bool
  | ⟨t, ss⟩, ⟨t', ss'⟩ => t == t' && Stmt.beqList ss ss'

end

mutual

/-- Comparison of expressions decides their equality. -/
theorem Expr.beq_iff : ∀ a b : Expr, a.beq b = true ↔ a = b
  | .missing, b => by cases b <;> simp [Expr.beq]
  | .unknown l t, b => by cases b <;> simp [Expr.beq]
  | .identifier i, b => by cases b <;> simp [Expr.beq]
  | .integer t n, b => by cases b <;> simp [Expr.beq]
  | .boolean t v, b => by cases b <;> simp [Expr.beq]
  | .text t s, b => by cases b <;> simp [Expr.beq]
  | .unary t o a, b => by cases b <;> simp [Expr.beq, Expr.beq_iff a, and_assoc]
  | .binary t l o r, b => by
    cases b <;> simp [Expr.beq, Expr.beq_iff l, Expr.beq_iff r, and_assoc]
  | .function t ps body, b => by cases b <;> simp [Expr.beq, Block.beq_iff body, and_assoc]
  | .call t f es, b => by
    cases b <;> simp [Expr.beq, Expr.beq_iff f, Expr.beqList_iff es, and_assoc]
  | .array t es, b => by cases b <;> simp [Expr.beq, Expr.beqList_iff es]
  | .index t a i, b => by
    cases b <;> simp [Expr.beq, Expr.beq_iff a, Expr.beq_iff i, and_assoc]
  | .hash t ps, b => by cases b <;> simp [Expr.beq, Expr.beqPairs_iff ps]

theorem Expr.beqList_iff : ∀ as bs : List Expr, Expr.beqList as bs = true ↔ as = bs
  | [], bs => by cases bs <;> simp [Expr.beqList]
  | a :: as, bs => by
    cases bs <;> simp [Expr.beqList, Expr.beq_iff a, Expr.beqList_iff as]

theorem Expr.beqPairs_iff :
    ∀ ps qs : List (Expr × Expr), Expr.beqPairs ps qs = true ↔ ps = qs
  | [], qs => by cases qs <;> simp [Expr.beqPairs]
  | (k, v) :: ps, qs => by
    cases qs with
    | nil => simp [Expr.beqPairs]
    | cons q qs =>
      obtain ⟨k', v'⟩ := q
      simp [Expr.beqPairs, Expr.beq_iff k, Expr.beq_iff v, Expr.beqPairs_iff ps]

/-- Comparison of statements decides their equality. -/
theorem Stmt.beq_iff : ∀ a b : Stmt, a.beq b = true ↔ a = b
  | .unknown l t, b => by cases b <;> simp [Stmt.beq]
  | .declaration t i e, b => by cases b <;> simp [Stmt.beq, Expr.beq_iff e, and_assoc]
  | .ret t e, b => by cases b <;> simp [Stmt.beq, Expr.beq_iff e]
  | .expression t e, b => by cases b <;> simp [Stmt.beq, Expr.beq_iff e]
  | .block body, b => by cases b <;> simp [Stmt.beq, Block.beq_iff body]
  | .ifThen t c body, b => by
    cases b <;> simp [Stmt.beq, Expr.beq_iff c, Block.beq_iff body, and_assoc]
  | .ifElse t c body alt, b => by
    cases b <;> simp [Stmt.beq, Expr.beq_iff c, Block.beq_iff body, Block.beq_iff alt, and_assoc]

theorem Stmt.beqList_iff : ∀ as bs : List Stmt, Stmt.beqList as bs = true ↔ as = bs
  | [], bs => by cases bs <;> simp [Stmt.beqList]
  | a :: as, bs => by
    cases bs <;> simp [Stmt.beqList, Stmt.beq_iff a, Stmt.beqList_iff as]

/-- Comparison of blocks decides their equality. -/
theorem Block.beq_iff : ∀ a b : Block, a.beq b = true ↔ a = b
  | ⟨t, ss⟩, ⟨t', ss'⟩ => by simp [Block.beq, Stmt.beqList_iff ss]

end

instance : DecidableEq Expr := fun a b => decidable_of_iff _ (Expr.beq_iff a b)

instance : DecidableEq Stmt := fun a b => decidable_of_iff _ (Stmt.beq_iff a b)

instance : DecidableEq Block := fun a b => decidable_of_iff _ (Block.beq_iff a b)

deriving instance DecidableEq for Program

end MonkeyLang
