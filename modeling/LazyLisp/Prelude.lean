/-!
The prelude: the part of the language that is written in the language itself. It is loaded into the
global frame before any other program text runs.
-/

namespace LazyLisp.Prelude

def foldLeft : String :=
  "(define (fold-left f init xs)
  \"Combine xs from the left: (f (f (f init x1) x2) x3).\"
  (if (cons? xs)
      (fold-left f (f init (car xs)) (cdr xs))
      init))"

def reverse : String :=
  "(define (reverse xs)
  \"The elements of xs in the opposite order.\"
  (fold-left (lambda (acc x) (cons x acc)) '() xs))"

def foldRight : String :=
  "(define (fold-right f init xs)
  \"Combine xs from the right: (f x1 (f x2 (f x3 init))).\"
  (fold-left (lambda (acc x) (f x acc)) init (reverse xs)))"

def length : String :=
  "(define length
  (case-lambda
    \"Number of elements in the list xs.\"
    ((xs) (length xs 0))
    ((xs n) (if (cons? xs)
                (length (cdr xs) (+ n 1))
                n))))"

def append : String :=
  "(define (append . lists)
  \"Concatenate lists. Every list but the last is copied.\"
  (if (cons? lists)
      (let ((backwards (reverse lists)))
        (fold-left (lambda (acc xs) (fold-right cons acc xs))
                   (car backwards)
                   (cdr backwards)))
      '()))"

def map : String :=
  "(define (map f xs)
  \"Apply f to each element of xs, left to right, collecting the results.\"
  (reverse (fold-left (lambda (acc x) (cons (f x) acc)) '() xs)))"

def filter : String :=
  "(define (filter keep? xs)
  \"The elements of xs for which keep? is truthy, in order.\"
  (reverse (fold-left (lambda (acc x) (if (keep? x) (cons x acc) acc)) '() xs)))"

def forEach : String :=
  "(define (for-each f xs)
  \"Call f on each element of xs for its side effects.\"
  (if (cons? xs)
      (begin (f (car xs))
             (for-each f (cdr xs)))
      '()))"

def nth : String :=
  "(define (nth xs n)
  \"The element of xs at index n, counting from 0.\"
  (if (= n 0)
      (car xs)
      (nth (cdr xs) (- n 1))))"

def last : String :=
  "(define (last xs)
  \"The final element of a non-empty list.\"
  (if (cons? (cdr xs))
      (last (cdr xs))
      (car xs)))"

def range : String :=
  "(define range
  (case-lambda
    \"The integers from `from` up to, but not including, `to`.\"
    ((from to) (range from to '()))
    ((from to acc) (if (< from to)
                       (range from (- to 1) (cons (- to 1) acc))
                       acc))))"

def iterate : String :=
  "(define (iterate f x)
  \"The infinite lazy list x, (f x), (f (f x)), ...\"
  (lazy-cons x (iterate f (f x))))"

def take : String :=
  "(define take
  (case-lambda
    \"The first n elements of xs. Forces no more of a lazy list than it returns.\"
    ((n xs) (take n xs '()))
    ((n xs acc)
     (if (and (> n 0) (cons? xs))
         (let ((acc (cons (car xs) acc)))
           (if (= n 1)
               (reverse acc)
               (take (- n 1) (cdr xs) acc)))
         (reverse acc)))))"

def clauseBody : String :=
  "(define (body->expr body)
  \"One expression for a clause body: the form itself, or a begin of several.\"
  (if (cons? body)
      (if (cons? (cdr body))
          `(begin ,@body)
          (car body))
      '()))"

def condToIf : String :=
  "(define (cond->if clauses)
  \"Nested ifs equivalent to the clauses of a cond form.\"
  (if (cons? clauses)
      (let ((test (car (car clauses)))
            (body (cdr (car clauses))))
        (if (eq? test 'else)
            (body->expr body)
            `(if ,test ,(body->expr body) ,(cond->if (cdr clauses)))))
      '()))"

def condForm : String :=
  "(define-macro (cond . clauses)
  \"(cond (test expr...)...) evaluates the body of the first clause whose test is truthy.\"
  (cond->if clauses))"

def assertForm : String :=
  "(define-macro (assert expr)
  \"The value of expr when it is truthy; otherwise raise assertion-error carrying 'expr.\"
  (let ((value (gensym \"value\")))
    `(let ((,value ,expr))
       (if ,value ,value (throw-error 'assertion-error ',expr)))))"

def whenForm : String :=
  "(define-macro (when test . body)
  \"(when test body...) evaluates body if test is truthy, else ().\"
  `(if ,test (begin ,@body) ()))"

def unlessForm : String :=
  "(define-macro (unless test . body)
  \"(unless test body...) evaluates body if test is falsey, else ().\"
  `(if ,test () (begin ,@body)))"

def repl : String :=
  "(define (repl)
  \"Read, evaluate and print forms from standard input until end of input.\"
  (print \"sloth> \")
  (let ((form (catch-error (read))))
    (if (error? form)
        (if (eq? (error-type form) 'eof)
            (begin (println)
                   (println \"Goodbye.\")
                   'goodbye)
            (begin (println \"read error: \" (error-value form))
                   (repl)))
        (let ((result (catch-error (eval form))))
          (if (and (error? result) (not (null? (error-source result))))
              (begin (println \"uncaught error while evaluating \" (repr form))
                     (dump-traceback result))
              (println (repr result)))
          (repl)))))"

/-- All definitions in the order in which they are made. -/
def definitions : List String :=
  [foldLeft, reverse, foldRight, length, append, map, filter, forEach, nth, last, range,
    iterate, take, clauseBody, condToIf, condForm, assertForm, whenForm, unlessForm, repl]

def source : String := "\n\n".intercalate definitions

def name : String := "core.lisp"

end LazyLisp.Prelude
