/-!
The derived forms, written with `syntax-rules` in the language itself. The variables of a `letrec`
are defined in a frame of their own, so that every init sees every variable.
-/
namespace HygienicScheme

def prelude : String := r#"
(define-syntax let
  (syntax-rules ()
    ((_ ((name val) ...) body1 body2 ...)
     ((lambda (name ...) body1 body2 ...) val ...))
    ((_ tag ((name val) ...) body1 body2 ...)
     ((letrec ((tag (lambda (name ...) body1 body2 ...))) tag) val ...))))

(define-syntax let*
  (syntax-rules ()
    ((_ () body1 body2 ...)
     (let () body1 body2 ...))
    ((_ ((name val) rest ...) body1 body2 ...)
     (let ((name val)) (let* (rest ...) body1 body2 ...)))))

(define-syntax letrec
  (syntax-rules ()
    ((_ ((var init) ...) body1 body2 ...)
     ((lambda () (define var init) ... (let () body1 body2 ...))))))

(define-syntax letrec*
  (syntax-rules ()
    ((_ ((var init) ...) body1 body2 ...)
     ((lambda () (define var init) ... (let () body1 body2 ...))))))

(define-syntax cond
  (syntax-rules (else =>)
    ((_) (if #f #f))
    ((_ (else result1 result2 ...))
     (begin result1 result2 ...))
    ((_ (test => result))
     (let ((temp test))
       (if temp (result temp))))
    ((_ (test => result) clause1 clause2 ...)
     (let ((temp test))
       (if temp (result temp) (cond clause1 clause2 ...))))
    ((_ (test))
     test)
    ((_ (test) clause1 clause2 ...)
     (let ((temp test))
       (if temp temp (cond clause1 clause2 ...))))
    ((_ (test result1 result2 ...))
     (if test (begin result1 result2 ...)))
    ((_ (test result1 result2 ...) clause1 clause2 ...)
     (if test (begin result1 result2 ...) (cond clause1 clause2 ...)))))

(define-syntax case
  (syntax-rules (else)
    ((_ (key ...) clauses ...)
     (let ((atom-key (key ...)))
       (case atom-key clauses ...)))
    ((_ key)
     (if #f #f))
    ((_ key (else result1 result2 ...))
     (begin result1 result2 ...))
    ((_ key ((atoms ...) result1 result2 ...))
     (if (memv key '(atoms ...)) (begin result1 result2 ...)))
    ((_ key ((atoms ...) result1 result2 ...) clause clauses ...)
     (if (memv key '(atoms ...))
         (begin result1 result2 ...)
         (case key clause clauses ...)))))

(define-syntax when
  (syntax-rules ()
    ((_ test body1 body2 ...)
     (if test (begin body1 body2 ...)))))

(define-syntax unless
  (syntax-rules ()
    ((_ test body1 body2 ...)
     (if test (if #f #f) (begin body1 body2 ...)))))

(define-syntax do
  (syntax-rules ()
    ((_ ((var init step ...) ...) (test expr ...) command ...)
     (letrec ((loop
               (lambda (var ...)
                 (if test
                     (begin (if #f #f) expr ...)
                     (begin command ...
                            (loop (do "step" var step ...) ...))))))
       (loop init ...)))
    ((_ "step" x)
     x)
    ((_ "step" x y)
     y)))

(define-syntax delay
  (syntax-rules ()
    ((_ expr)
     (make-promise (lambda () expr)))))
"#

end HygienicScheme
